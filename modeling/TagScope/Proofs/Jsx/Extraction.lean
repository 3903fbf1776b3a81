import TagScope.Proofs.Jsx.Candidates

/-!
# No candidate is found twice

From a candidate upwards there are only parts of names until the node that brings it in, and that
node is no part of a name (`Brings.find?_ancestors`), so the candidate determines it
(`Brings.unique`). With `mem_candidatesAt_iff` this gives the candidates of a whole document, each
once and in the order of the nodes that bring them in (`candidates_exact`).
-/

set_option autoImplicit false

namespace TagScope

namespace Site

/-! ### Parts of names -/

/-- The kinds of nodes that hold a candidate without bringing it in. -/
def isNamePart (s : Site) : Bool :=
  ["member_expression", "nested_identifier", "jsx_namespace_name"].contains s.node.kind

theorem isNamePart_of_isMember {s : Site} (h : s.isMember = true) : s.isNamePart = true := by
  simp only [isMember, isNamePart, List.contains_iff_mem] at h ⊢
  exact List.mem_append_left ["jsx_namespace_name"] h

theorem find?_ancestors_of_isNamePart {s c : Site} (hc : c ∈ s.children)
    (hs : s.isNamePart = true) :
    c.ancestors.find? (fun a ↦ !a.isNamePart) = s.ancestors.find? fun a ↦ !a.isNamePart := by
  rw [ancestors_of_mem_children hc, List.find?_cons_of_neg (by rw [hs]; decide)]

theorem find?_ancestors_of_not_isNamePart {s c : Site} (hc : c ∈ s.children)
    (hs : s.isNamePart = false) : c.ancestors.find? (fun a ↦ !a.isNamePart) = some s := by
  rw [ancestors_of_mem_children hc, List.find?_cons_of_pos (by rw [hs]; decide)]

/-- Between a member expression and a site to which it leads there are only parts of names. -/
theorem LeadsTo.find?_ancestors {s x : Site} (h : LeadsTo s x) :
    x.ancestors.find? (fun a ↦ !a.isNamePart) = s.ancestors.find? fun a ↦ !a.isNamePart := by
  induction h with
  | object hs hobject =>
    exact find?_ancestors_of_isNamePart (object?_mem_children hobject) (isNamePart_of_isMember hs)
  | through hs hobject _ ih =>
    rw [ih]
    exact find?_ancestors_of_isNamePart (object?_mem_children hobject) (isNamePart_of_isMember hs)

end Site

namespace Jsx

variable {doc : Document}

/-! ### The node that brings a candidate in -/

theorem isNamePart_of_isElement {s : Site} (h : isElement s = true) : s.isNamePart = false := by
  simp only [isElement, List.contains_iff_mem, List.mem_cons, List.not_mem_nil, or_false] at h
  rcases h with h | h <;> simp [Site.isNamePart, h]

/-- The node that brings a candidate in is the first one above it that is no part of a name. -/
theorem Brings.find?_ancestors {s x : Site} {role : Role} (h : Brings doc s x role) :
    x.ancestors.find? (fun a ↦ !a.isNamePart) = some s := by
  cases h with
  | component helement hname _ _ =>
    exact Site.find?_ancestors_of_not_isNamePart (List.mem_of_find?_eq_some hname)
      (isNamePart_of_isElement helement)
  | member helement hname hleads _ =>
    rw [hleads.find?_ancestors]
    exact Site.find?_ancestors_of_not_isNamePart (List.mem_of_find?_eq_some hname)
      (isNamePart_of_isElement helement)
  | @directive full space _ hattribute hfull hkind hparts _ _ _ =>
    have hmem : full ∈ s.children := (List.mem_filter.mp (List.mem_of_head? hfull)).1
    have hx : x ∈ full.namedChildren := by rw [hparts]; simp
    rw [Site.find?_ancestors_of_isNamePart (List.mem_filter.mp hx).1
      (by simp [Site.isNamePart, hkind])]
    exact Site.find?_ancestors_of_not_isNamePart hmem (by simp [Site.isNamePart, hattribute])

theorem Brings.unique {s t x : Site} {role role' : Role} (hs : Brings doc s x role)
    (ht : Brings doc t x role') : s = t :=
  Option.some.inj (hs.find?_ancestors.symm.trans ht.find?_ancestors)

/-! ### The candidates of a document -/

theorem nodup_map_address_candidates (doc : Document) :
    ((candidates doc).map fun c ↦ c.site.address).Nodup := by
  rw [candidates, List.map_flatMap, List.nodup_flatMap]
  constructor
  · intro s _
    rcases hfound : candidatesAt doc s with _ | ⟨c, rest⟩
    · exact List.nodup_nil
    · rw [← hfound, candidatesAt_eq_singleton (hfound ▸ List.mem_cons_self)]
      exact List.nodup_singleton _
  · have hsites := List.Nodup.of_map _ (Site.nodup_map_address_sites doc.root)
    refine hsites.imp_of_mem fun {s t} hs ht hne ↦ ?_
    intro address hleft hright
    obtain ⟨c, hc, rfl⟩ := List.mem_map.mp hleft
    obtain ⟨d, hd, haddress⟩ := List.mem_map.mp hright
    have hmem : ∀ {u : Site} {e : Candidate}, u ∈ doc.root.sites → e ∈ candidatesAt doc u →
        e.site ∈ doc.root.sites := fun hu he ↦
      Site.mem_sites_iff.mpr (within_of_mem_candidates (List.mem_flatMap.mpr ⟨_, hu, he⟩))
    -- One address is one site, and a site has one node that brings it in.
    have hsite : d.site = c.site := Site.eq_of_address_eq (hmem ht hd) (hmem hs hc) haddress
    have htd := (mem_candidatesAt_iff.mp hd).2
    rw [hsite] at htd
    exact hne ((mem_candidatesAt_iff.mp hc).2.unique htd)

/-- The candidates found along a list of sites answer, one by one and in order, to those of the
sites that bring one in. -/
theorem exists_sublist_forall₂_candidatesAt (doc : Document) (sites : List Site) :
    ∃ bringers : List Site, bringers.Sublist sites ∧
      List.Forall₂ (fun s c ↦ Brings doc s c.site c.role) bringers
        (sites.flatMap (candidatesAt doc)) := by
  induction sites with
  | nil => exact ⟨[], .slnil, .nil⟩
  | cons s rest ih =>
    obtain ⟨bringers, hsublist, hbring⟩ := ih
    rw [List.flatMap_cons]
    rcases hfound : candidatesAt doc s with _ | ⟨c, others⟩
    · exact ⟨bringers, hsublist.cons s, hbring⟩
    · have hc : c ∈ candidatesAt doc s := hfound ▸ List.mem_cons_self
      rw [← hfound, candidatesAt_eq_singleton hc]
      exact ⟨s :: bringers, hsublist.cons_cons s, .cons (mem_candidatesAt_iff.mp hc).2 hbring⟩

/-- The candidates of a document are the sites that its elements and attributes bring in, each
under its own text. No site is a candidate twice, and the candidates stand in the pre-order of the
nodes that bring them in. -/
theorem candidates_exact (doc : Document) :
    (∀ c : Candidate, c ∈ candidates doc ↔
      c.name = doc.nameOf c.site.node ∧ ∃ s ∈ doc.root.sites, Brings doc s c.site c.role) ∧
    ((candidates doc).map fun c ↦ c.site.address).Nodup ∧
    ∃ bringers : List Site, bringers.Sublist doc.root.sites ∧
      List.Forall₂ (fun s c ↦ Brings doc s c.site c.role) bringers (candidates doc) := by
  refine ⟨fun c ↦ ?_, nodup_map_address_candidates doc,
    exists_sublist_forall₂_candidatesAt doc doc.root.sites⟩
  rw [candidates, List.mem_flatMap]
  constructor
  · rintro ⟨s, hs, hc⟩
    obtain ⟨hname, hbrings⟩ := mem_candidatesAt_iff.mp hc
    exact ⟨hname, s, hs, hbrings⟩
  · rintro ⟨hname, s, hs, hbrings⟩
    exact ⟨s, hs, mem_candidatesAt_iff.mpr ⟨hname, hbrings⟩⟩

end Jsx

end TagScope
