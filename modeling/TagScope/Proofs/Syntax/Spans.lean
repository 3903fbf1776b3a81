import TagScope.Proofs.Syntax.Sites
import TagScope.Proofs.Text.Utf8

/-!
# Spans

The spans of a tree are nested like the tree when every node lies within its parent and siblings
stand in order without overlapping (`SpansNest`). Then no node starts or ends in the middle of a
leaf (`SpansNest.not_inside_leaf`): of two nodes, one lies within the other, and then neither of its
ends is inside a leaf below it, or they stand apart.

A place in the encoding of a text is a cut of the text if it does not fall into a character
(`IsCut`). `SpansText` says that a tree belongs to a text: its spans are nested and their ends are
cuts.
-/

set_option autoImplicit false

namespace TagScope

namespace Site

theorem map_node_children (s : Site) : s.children.map node = s.node.children := by
  rw [children, List.map_map]
  exact List.zipIdx_map_fst 0 s.node.children

/-- A site within another is that site or lies within one of its children. -/
theorem Within.eq_or_child {top s : Site} (h : Within top s) :
    s = top ∨ ∃ c ∈ top.children, Within c s := by
  have hmem := mem_subtree_of_within h
  rw [subtree_eq] at hmem
  rcases List.mem_cons.mp hmem with heq | hbelow
  · exact Or.inl heq
  · obtain ⟨c, hc, hs⟩ := List.mem_flatMap.mp hbelow
    exact Or.inr ⟨c, hc, within_of_mem_subtree hs⟩

end Site

/-- The nodes of a tree have spans, each within that of its parent, and those of siblings are in
order and do not overlap. -/
structure Node.SpansNest (root : Node) : Prop where
  ordered : ∀ s ∈ root.sites, s.node.start ≤ s.node.stop
  inside : ∀ s ∈ root.sites, ∀ c ∈ s.node.children, s.node.start ≤ c.start ∧ c.stop ≤ s.node.stop
  apart : ∀ s ∈ root.sites, s.node.children.Pairwise fun a b ↦ a.stop ≤ b.start

namespace Node.SpansNest

open Site (Within)

variable {root : Node}

theorem le_of_within (h : root.SpansNest) {top s : Site} (htop : Within (Site.root root) top)
    (hs : Within top s) : top.node.start ≤ s.node.start ∧ s.node.stop ≤ top.node.stop := by
  induction hs with
  | refl => exact ⟨Nat.le_refl _, Nat.le_refl _⟩
  | @child p c hp hc ih =>
    have hmem : c.node ∈ p.node.children := by
      rw [← p.map_node_children]
      exact List.mem_map_of_mem hc
    have hinside := h.inside p (Site.mem_sites_iff.mpr (htop.trans hp)) c.node hmem
    exact ⟨Nat.le_trans ih.1 hinside.1, Nat.le_trans hinside.2 ih.2⟩

/-- Two children of a site are the same one, or one ends before the other starts. -/
theorem eq_or_apart (h : root.SpansNest) {top c d : Site} (htop : Within (Site.root root) top)
    (hc : c ∈ top.children) (hd : d ∈ top.children) :
    c = d ∨ c.node.stop ≤ d.node.start ∨ d.node.stop ≤ c.node.start := by
  have hpairwise : top.children.Pairwise fun a b ↦ a.node.stop ≤ b.node.start := by
    rw [← List.pairwise_map (f := Site.node) (R := fun a b : Node ↦ a.stop ≤ b.start),
      top.map_node_children]
    exact h.apart top (Site.mem_sites_iff.mpr htop)
  exact List.Pairwise.forall_of_forall_of_flip
    (R := fun a b : Site ↦ a = b ∨ a.node.stop ≤ b.node.start ∨ b.node.stop ≤ a.node.start)
    (fun a _ ↦ Or.inl rfl) (hpairwise.imp fun hab ↦ Or.inr (Or.inl hab))
    (hpairwise.imp fun hab ↦ Or.inr (Or.inr hab)) hc hd

/-- Neither end of a node falls into the middle of a leaf. -/
theorem not_inside_leaf (h : root.SpansNest) {x leaf : Site} (hx : Within (Site.root root) x)
    (hleaf : Within (Site.root root) leaf) (hchildren : leaf.node.children = []) {offset : Nat}
    (hoffset : offset = x.node.start ∨ offset = x.node.stop) :
    ¬ (leaf.node.start < offset ∧ offset < leaf.node.stop) := by
  -- Going down from the root, the two sites share every subtree until they part at some site.
  have hshared : ∀ top : Site, Within (Site.root root) top → Within top x → Within top leaf →
      ¬ (leaf.node.start < offset ∧ offset < leaf.node.stop) := by
    intro top
    induction top using Site.inductionOn with
    | step top ih =>
      intro htop hx hleaf
      have hxspan := h.ordered x (Site.mem_sites_iff.mpr (htop.trans hx))
      rcases hx.eq_or_child with rfl | ⟨c, hc, hxc⟩
      · have hle := h.le_of_within htop hleaf
        omega
      rcases hleaf.eq_or_child with rfl | ⟨d, hd, hleafd⟩
      · rw [Site.children, hchildren] at hc
        simp at hc
      have hcle := h.le_of_within (htop.child hc) hxc
      have hdle := h.le_of_within (htop.child hd) hleafd
      rcases h.eq_or_apart htop hc hd with rfl | hbefore | hafter
      · exact ih c hc (htop.child hc) hxc hleafd
      · omega
      · omega
  exact hshared _ .refl hx hleaf

end Node.SpansNest

namespace Utf8

/-- A place in the encoding of a text that does not fall into a character. -/
def IsCut (text : List Char) (offset : Nat) : Prop :=
  ∃ count ≤ text.length, offset = (encode (text.take count)).length

instance (text : List Char) (offset : Nat) : Decidable (IsCut text offset) :=
  inferInstanceAs (Decidable (∃ count ≤ text.length, _))

theorem isCut_zero (text : List Char) : IsCut text 0 :=
  ⟨0, Nat.zero_le _, rfl⟩

theorem IsCut.exists_append {text : List Char} {offset : Nat} (h : IsCut text offset) :
    ∃ front back, text = front ++ back ∧ offset = (encode front).length := by
  obtain ⟨count, -, hoffset⟩ := h
  exact ⟨text.take count, text.drop count, (List.take_append_drop count text).symm, hoffset⟩

end Utf8

/-- The tree of a document belongs to a text: the content is the text's encoding, the spans are
nested, and no node starts or ends within a character. -/
structure Document.SpansText (doc : Document) (text : List Char) : Prop where
  content : doc.content = Utf8.encode text
  nest : doc.root.SpansNest
  cuts : ∀ s ∈ doc.root.sites, Utf8.IsCut text s.node.start ∧ Utf8.IsCut text s.node.stop

end TagScope
