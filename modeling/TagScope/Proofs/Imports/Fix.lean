import TagScope.Imports.Fix
import TagScope.Proofs.Syntax.Sites

/-!
# When the missing names can be imported

The edit that imports names can fail only where an import statement or its braces have no token to
write after. A statement that names a module has one, so on a tree whose groups of specifiers are
not childless there is always a fix to report (`exists_importFix_eq`).
-/

set_option autoImplicit false

namespace TagScope

theorem Insertion.exists_afterFirstChild_eq {n : Node} (h : n.children ≠ []) (text : String) :
    ∃ insertion, Insertion.afterFirstChild n text = .ok insertion := by
  obtain ⟨first, rest, hchildren⟩ := List.exists_cons_of_ne_nil h
  rw [Insertion.afterFirstChild, hchildren]
  exact ⟨_, rfl⟩

namespace Document

variable {doc : Document}

theorem children_ne_nil_of_moduleOf? {statement : Node} {source : String}
    (h : doc.moduleOf? statement = some source) : statement.children ≠ [] := by
  intro hchildren
  rw [moduleOf?, Node.child?, hchildren] at h
  cases h

/-- Every group of specifiers in a tree has a child. -/
def GroupsHaveTokens (doc : Document) : Prop :=
  ∀ s ∈ doc.root.sites, s.node.kind = "named_imports" → s.node.children ≠ []

theorem exists_site_of_mem_children {p : Site} {c : Node} (h : c ∈ p.node.children) :
    ∃ s ∈ p.children, s.node = c := by
  obtain ⟨index, hindex⟩ := List.mem_iff_getElem?.mp h
  exact ⟨⟨c, (index, p.node) :: p.above⟩, Site.mem_children.mpr ⟨index, hindex, rfl⟩, rfl⟩

theorem exists_extended_eq (hgroups : doc.GroupsHaveTokens) {statement : Node}
    (hstatement : statement ∈ doc.root.children) {source : String}
    (hsource : doc.moduleOf? statement = some source) (names : List String) :
    ∃ insertion, doc.extended statement names = .ok insertion := by
  unfold extended
  split
  · exact Insertion.exists_afterFirstChild_eq (children_ne_nil_of_moduleOf? hsource) _
  next clause hclause =>
    split
    next group hgroup =>
      split
      · exact ⟨_, rfl⟩
      · refine Insertion.exists_afterFirstChild_eq ?_ _
        obtain ⟨s, hs, rfl⟩ := exists_site_of_mem_children (p := Site.root doc.root) hstatement
        obtain ⟨c, hc, rfl⟩ := exists_site_of_mem_children (List.mem_of_find?_eq_some hclause)
        obtain ⟨g, hg, rfl⟩ := exists_site_of_mem_children (List.mem_of_find?_eq_some hgroup)
        have hwithin := ((Site.Within.refl.child hs).child hc).child hg
        refine hgroups g (Site.mem_sites_iff.mpr hwithin) ?_
        simpa using List.find?_some hgroup
    · split
      · exact ⟨_, rfl⟩
      · exact ⟨_, rfl⟩

/-- Names can always be imported: from an existing import of the module, which is also where the
fix is reported, or else by a new one. -/
theorem exists_importFix_eq (hgroups : doc.GroupsHaveTokens) (names : List String)
    (source : String) : ∃ insertion, doc.importFix names source =
      .ok ((doc.valueImport? source).getD doc.root, insertion) := by
  unfold importFix
  cases hfound : doc.valueImport? source with
  | none => exact ⟨_, rfl⟩
  | some statement =>
    have hmem : statement ∈ doc.root.children :=
      (List.mem_filter.mp (List.mem_of_find?_eq_some hfound)).1
    have hsource : doc.moduleOf? statement = some source := by
      have := List.find?_some hfound
      simp only [Bool.and_eq_true, decide_eq_true_eq] at this
      exact this.2
    dsimp only
    rw [addNames]
    split
    · exact ⟨none, rfl⟩
    · obtain ⟨insertion, hinsertion⟩ := exists_extended_eq hgroups hmem hsource
        (names.filter fun name ↦ !(doc.valueNames statement).contains name)
      rw [hinsertion]
      exact ⟨some insertion, rfl⟩

end Document

end TagScope
