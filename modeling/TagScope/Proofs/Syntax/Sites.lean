import Mathlib.Data.List.Nodup
import TagScope.Syntax.Node

/-!
# Sites and the relation of being within a site

The pre-order of a tree is defined by recursion on nodes and lists of nodes. This module restates
it on sites: the subtree of a site is the site followed by the subtrees of its children
(`subtree_eq`), and the members of a subtree are exactly the sites reached by going from parent to
child (`mem_subtree_iff`). What the scope analysis needs of trees follows from that relation: the
ancestors of a site of a tree are sites of the tree (`Within.of_mem_ancestors`), a site lies in the
subtrees of its ancestors (`within_of_mem_ancestors`), every subtree is a contiguous part of the
pre-order (`exists_sites_eq`), and the addresses of a tree are distinct (`nodup_map_address_sites`).
-/

set_option autoImplicit false

namespace TagScope

/-- A named node without children. -/
def Node.leaf (kind : String) (start stop : Nat) (field : Option String) : Node :=
  ⟨⟨kind, true, start, stop, field⟩, []⟩

/-- A keyword or a mark. -/
def Node.mark (kind : String) (start stop : Nat) : Node :=
  ⟨⟨kind, false, start, stop, none⟩, []⟩

namespace Site

/-! ### Ancestors -/

/-- The sites that an ascent passes, from the parent up to the root. -/
def passed : Ascent → List Site
  | [] => []
  | (_, parent) :: above => ⟨parent, above⟩ :: passed above

/-- The sites above a site, from its parent up to the root. -/
def ancestors (s : Site) : List Site := passed s.above

@[simp] theorem ancestors_root (n : Node) : (Site.root n).ancestors = [] := rfl

theorem mem_children {s c : Site} :
    c ∈ s.children ↔ ∃ index, s.node.children[index]? = some c.node ∧
      c.above = (index, s.node) :: s.above := by
  unfold children
  rw [List.mem_map]
  constructor
  · rintro ⟨⟨child, index⟩, hmem, rfl⟩
    exact ⟨index, List.mk_mem_zipIdx_iff_getElem?.mp hmem, rfl⟩
  · rintro ⟨index, hchild, habove⟩
    refine ⟨(c.node, index), List.mk_mem_zipIdx_iff_getElem?.mpr hchild, ?_⟩
    change Site.mk c.node ((index, s.node) :: s.above) = c
    rw [← habove]

theorem ancestors_of_mem_children {s c : Site} (h : c ∈ s.children) :
    c.ancestors = s :: s.ancestors := by
  obtain ⟨index, -, habove⟩ := mem_children.mp h
  simp only [ancestors, habove, passed]

/-! ### Subtrees -/

/-- The sites of consecutive children, from the one with a given index on. -/
def childSites (parent : Node) (above : Ascent) (index : Nat) (cs : List Node) : List Site :=
  (cs.zipIdx index).map fun (c, i) ↦ ⟨c, (i, parent) :: above⟩

@[simp] theorem childSites_nil (parent : Node) (above : Ascent) (index : Nat) :
    childSites parent above index [] = [] := rfl

@[simp] theorem childSites_cons (parent : Node) (above : Ascent) (index : Nat) (c : Node)
    (cs : List Node) : childSites parent above index (c :: cs) =
      ⟨c, (index, parent) :: above⟩ :: childSites parent above (index + 1) cs := rfl

theorem children_eq (s : Site) : s.children = childSites s.node s.above 0 s.node.children := rfl

theorem sitesOfAll_eq_flatMap (parent : Node) (above : Ascent) (cs : List Node) :
    ∀ index, Node.sitesOfAll parent above index cs =
      (childSites parent above index cs).flatMap subtree := by
  induction cs with
  | nil => intro index; rw [Node.sitesOfAll]; rfl
  | cons c rest ih =>
    intro index
    rw [Node.sitesOfAll, childSites_cons, List.flatMap_cons, ih]
    rfl

/-- The pre-order of a subtree: the site, then the subtrees of its children. -/
theorem subtree_eq (s : Site) : s.subtree = s :: s.children.flatMap subtree := by
  obtain ⟨⟨label, cs⟩, above⟩ := s
  rw [children_eq, ← sitesOfAll_eq_flatMap]
  rw [subtree, Node.sitesFrom]

theorem self_mem_subtree (s : Site) : s ∈ s.subtree := by
  rw [subtree_eq]
  exact List.mem_cons_self

theorem subtree_root (n : Node) : (Site.root n).subtree = n.sites := rfl

/-- A property of all sites follows from its inheritance by parents. -/
theorem inductionOn {P : Site → Prop} (step : ∀ s : Site, (∀ c ∈ s.children, P c) → P s)
    (s : Site) : P s := by
  have hnode : ∀ n : Node, ∀ above, P ⟨n, above⟩ := by
    intro n
    induction n using Node.induction with
    | step n ih =>
      intro above
      refine step _ fun c hc ↦ ?_
      obtain ⟨index, hchild, -⟩ := mem_children.mp hc
      exact ih c.node (List.mem_of_getElem? hchild) c.above
  exact hnode s.node s.above

/-! ### Being within a site -/

/-- A site lies within another when it is reached from it by going from parent to child. -/
inductive Within (top : Site) : Site → Prop
  | refl : Within top top
  | child {s c : Site} : Within top s → c ∈ s.children → Within top c

theorem Within.trans {top middle s : Site} (htop : Within top middle) (h : Within middle s) :
    Within top s := by
  induction h with
  | refl => exact htop
  | child _ hc ih => exact ih.child hc

theorem mem_subtree_of_within {top s : Site} (h : Within top s) : s ∈ top.subtree := by
  -- The step leaves the last child for the induction over trees: subtrees contain children.
  have hclosed : ∀ top s c : Site, s ∈ top.subtree → c ∈ s.children → c ∈ top.subtree := by
    intro top
    induction top using inductionOn with
    | step top ih =>
      intro s c hs hc
      rw [subtree_eq] at hs ⊢
      rcases List.mem_cons.mp hs with rfl | hs
      · exact List.mem_cons_of_mem _ (List.mem_flatMap.mpr ⟨c, hc, self_mem_subtree c⟩)
      · obtain ⟨d, hd, hsd⟩ := List.mem_flatMap.mp hs
        exact List.mem_cons_of_mem _ (List.mem_flatMap.mpr ⟨d, hd, ih d hd s c hsd hc⟩)
  induction h with
  | refl => exact self_mem_subtree top
  | child _ hc ih => exact hclosed top _ _ ih hc

theorem within_of_mem_subtree {top s : Site} (h : s ∈ top.subtree) : Within top s := by
  induction top using inductionOn with
  | step top ih =>
    rw [subtree_eq] at h
    rcases List.mem_cons.mp h with rfl | h
    · exact .refl
    · obtain ⟨c, hc, hsc⟩ := List.mem_flatMap.mp h
      exact (Within.refl.child hc).trans (ih c hc hsc)

/-- The members of a subtree are the sites within its top. -/
theorem mem_subtree_iff {top s : Site} : s ∈ top.subtree ↔ Within top s :=
  ⟨within_of_mem_subtree, mem_subtree_of_within⟩

theorem mem_sites_iff {n : Node} {s : Site} : s ∈ n.sites ↔ Within (Site.root n) s := by
  rw [← subtree_root, mem_subtree_iff]

theorem Within.of_mem_ancestors {n : Node} {s a : Site} (h : Within (Site.root n) s)
    (ha : a ∈ s.ancestors) : Within (Site.root n) a := by
  induction h with
  | refl => simp at ha
  | child hs hc ih =>
    rw [ancestors_of_mem_children hc] at ha
    rcases List.mem_cons.mp ha with rfl | ha
    · exact hs
    · exact ih ha

/-- A site of a tree lies within each of its ancestors. -/
theorem within_of_mem_ancestors {n : Node} {s a : Site} (h : Within (Site.root n) s)
    (ha : a ∈ s.ancestors) : Within a s := by
  induction h with
  | refl => simp at ha
  | child hs hc ih =>
    rw [ancestors_of_mem_children hc] at ha
    rcases List.mem_cons.mp ha with rfl | ha
    · exact Within.refl.child hc
    · exact (ih ha).child hc

theorem length_above_of_mem_passed {above : Ascent} {a : Site} (h : a ∈ passed above) :
    a.above.length < above.length := by
  induction above with
  | nil => simp [passed] at h
  | cons step above ih =>
    rw [List.length_cons]
    rcases List.mem_cons.mp h with rfl | h
    · exact Nat.lt_succ_self _
    · exact Nat.lt_succ_of_lt (ih h)

/-- A site within another is that site or has it among its ancestors. -/
theorem eq_or_mem_ancestors_of_within {top s : Site} (h : Within top s) :
    s = top ∨ top ∈ s.ancestors := by
  induction h with
  | refl => exact Or.inl rfl
  | child _ hc ih =>
    refine Or.inr ?_
    rw [ancestors_of_mem_children hc]
    rcases ih with rfl | hmem
    · exact List.mem_cons_self
    · exact List.mem_cons_of_mem _ hmem

/-- A site of a tree other than its root is the child of a site of the tree. -/
theorem Within.exists_parent {n : Node} {s : Site} (h : Within (Site.root n) s)
    (hs : s ≠ Site.root n) : ∃ p, Within (Site.root n) p ∧ s ∈ p.children := by
  cases h with
  | refl => exact absurd rfl hs
  | child hp hc => exact ⟨_, hp, hc⟩

/-- The subtree of a site of a tree is a contiguous part of the tree's pre-order. -/
theorem exists_sites_eq {n : Node} {s : Site} (h : Within (Site.root n) s) :
    ∃ before after, n.sites = before ++ s.subtree ++ after := by
  induction h with
  | refl => exact ⟨[], [], by rw [subtree_root, List.nil_append, List.append_nil]⟩
  | @child p c _ hc ih =>
    obtain ⟨before, after, hsites⟩ := ih
    obtain ⟨first, rest, hsplit⟩ := List.append_of_mem hc
    refine ⟨before ++ p :: first.flatMap subtree, rest.flatMap subtree ++ after, ?_⟩
    rw [hsites, subtree_eq p, hsplit]
    simp only [List.flatMap_append, List.flatMap_cons, List.append_assoc, List.cons_append]

/-! ### Addresses -/

@[simp] theorem address_root (n : Node) : (Site.root n).address = [] := rfl

theorem address_of_mem_children {s c : Site} (h : c ∈ s.children) :
    ∃ index, s.node.children[index]? = some c.node ∧ c.address = index :: s.address := by
  obtain ⟨index, hchild, habove⟩ := mem_children.mp h
  exact ⟨index, hchild, by rw [address, habove]; rfl⟩

theorem suffix_address_of_within {top s : Site} (h : Within top s) :
    top.address <:+ s.address := by
  induction h with
  | refl => exact List.suffix_refl _
  | child _ hc ih =>
    obtain ⟨index, -, haddress⟩ := address_of_mem_children hc
    rw [haddress]
    exact ih.trans (List.suffix_cons _ _)

theorem nodup_map_address_children (s : Site) : (s.children.map address).Nodup := by
  have hmap : s.children.map address =
      (s.node.children.zipIdx.map Prod.snd).map (· :: s.address) := by
    simp only [children, List.map_map]
    rfl
  rw [hmap, List.zipIdx_map_snd]
  exact (List.nodup_range' ..).map fun _ _ h ↦ (List.cons.inj h).1

/-- Sites within two different children of one site have different addresses. -/
theorem address_ne_of_within_children {s c d t u : Site} (hc : c ∈ s.children)
    (hd : d ∈ s.children) (hne : c.address ≠ d.address) (ht : Within c t) (hu : Within d u) :
    t.address ≠ u.address := by
  intro heq
  obtain ⟨i, -, hci⟩ := address_of_mem_children hc
  obtain ⟨j, -, hdj⟩ := address_of_mem_children hd
  have hsuffix : c.address <:+ d.address :=
    List.suffix_of_suffix_length_le (suffix_address_of_within ht)
      (heq ▸ suffix_address_of_within hu) (by rw [hci, hdj]; simp)
  exact hne (hsuffix.eq_of_length (by rw [hci, hdj]; simp))

/-- The addresses of a subtree are distinct. -/
theorem nodup_map_address_subtree (s : Site) : (s.subtree.map address).Nodup := by
  induction s using inductionOn with
  | step s ih =>
    rw [subtree_eq, List.map_cons, List.map_flatMap, List.nodup_cons, List.nodup_flatMap]
    refine ⟨?_, ih, ?_⟩
    · -- The address of a site within a child is longer than that of the parent.
      intro hmem
      obtain ⟨c, hc, hmap⟩ := List.mem_flatMap.mp hmem
      obtain ⟨t, ht, haddress⟩ := List.mem_map.mp hmap
      obtain ⟨index, -, hindex⟩ := address_of_mem_children hc
      have hlength := (suffix_address_of_within (within_of_mem_subtree ht)).length_le
      rw [haddress, hindex, List.length_cons] at hlength
      omega
    · have hpairwise := List.pairwise_map.mp (nodup_map_address_children s)
      refine hpairwise.imp_of_mem fun {c d} hc hd hne ↦ ?_
      intro shared hfirst hsecond
      obtain ⟨t, ht, htaddress⟩ := List.mem_map.mp hfirst
      obtain ⟨u, hu, huaddress⟩ := List.mem_map.mp hsecond
      exact address_ne_of_within_children hc hd hne (within_of_mem_subtree ht)
        (within_of_mem_subtree hu) (htaddress.trans huaddress.symm)

/-- The sites strictly inside a site are those that have it among their ancestors. -/
theorem mem_tail_subtree_iff {n : Node} {s t : Site} (hs : Within (Site.root n) s) :
    s ∈ t.subtree.tail ↔ t ∈ s.ancestors := by
  have hcons : t.subtree = t :: t.subtree.tail := by rw [subtree_eq, List.tail_cons]
  constructor
  · intro hmem
    have hwithin := within_of_mem_subtree (List.mem_of_mem_tail hmem)
    rcases eq_or_mem_ancestors_of_within hwithin with rfl | hancestor
    · have hnodup := List.Nodup.of_map _ (nodup_map_address_subtree s)
      rw [hcons, List.nodup_cons] at hnodup
      exact absurd hmem hnodup.1
    · exact hancestor
  · intro hancestor
    have hmem := mem_subtree_of_within (within_of_mem_ancestors hs hancestor)
    rw [hcons] at hmem
    rcases List.mem_cons.mp hmem with rfl | hmem
    · exact absurd (length_above_of_mem_passed hancestor) (Nat.lt_irrefl _)
    · exact hmem

theorem nodup_map_address_sites (n : Node) : (n.sites.map address).Nodup :=
  nodup_map_address_subtree (Site.root n)

theorem sites_eq_cons (n : Node) : n.sites = Site.root n :: n.sites.tail := by
  rw [← subtree_root, subtree_eq, List.tail_cons]

theorem mem_sites_of_mem_tail {n : Node} {s : Site} (h : s ∈ n.sites.tail) : s ∈ n.sites :=
  List.mem_of_mem_tail h

/-- The sites below the root are the children of sites of the tree. -/
theorem exists_parent_of_mem_tail {n : Node} {s : Site} (h : s ∈ n.sites.tail) :
    ∃ p, Within (Site.root n) p ∧ s ∈ p.children := by
  refine (mem_sites_iff.mp (mem_sites_of_mem_tail h)).exists_parent fun heq ↦ ?_
  have hnodup := nodup_map_address_sites n
  rw [sites_eq_cons, List.map_cons, List.nodup_cons] at hnodup
  exact hnodup.1 (List.mem_map_of_mem (heq ▸ h))

theorem mem_tail_of_mem_children {n : Node} {p c : Site} (hp : Within (Site.root n) p)
    (hc : c ∈ p.children) : c ∈ n.sites.tail := by
  have hmem := mem_sites_iff.mpr (hp.child hc)
  rw [sites_eq_cons] at hmem
  rcases List.mem_cons.mp hmem with rfl | hmem
  · obtain ⟨index, -, haddress⟩ := address_of_mem_children hc
    cases haddress
  · exact hmem

theorem mem_tail_of_mem_tail_subtree {n : Node} {s t : Site} (ht : t ∈ n.sites)
    (h : s ∈ t.subtree.tail) : s ∈ n.sites.tail := by
  have hs := (mem_sites_iff.mp ht).trans (within_of_mem_subtree (List.mem_of_mem_tail h))
  have hancestor := (mem_tail_subtree_iff hs).mp h
  obtain ⟨p, hp, hc⟩ := hs.exists_parent fun heq ↦ by
    rw [heq, ancestors_root] at hancestor
    exact List.not_mem_nil hancestor
  exact mem_tail_of_mem_children hp hc

/-- A site of a tree is determined by its address. -/
theorem eq_of_address_eq {n : Node} {s t : Site} (hs : s ∈ n.sites) (ht : t ∈ n.sites)
    (h : s.address = t.address) : s = t :=
  List.inj_on_of_nodup_map (nodup_map_address_sites n) hs ht h

end Site

end TagScope
