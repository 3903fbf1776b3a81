import TagScope.Proofs.Imports.Fix

/-!
# What an import fix inserts, and where

Whatever statement is extended or put in, the inserted text is one of six that spell out the names
(`importTexts`), and it is put in at a seam of the document: at its beginning, or where a node of
its tree starts or ends (`IsSeam`). An existing statement is extended where it starts or where a
node of it ends (`extended_cases`). Both hold of every insertion that is made, and there is none
only if all names are imported already (`importFix_cases`).
-/

set_option autoImplicit false

namespace TagScope

/-- The texts in which names of a module are put into a document. -/
def importTexts (source : String) (names : List String) : List String :=
  [" " ++ bracedNames names ++ " from", ", " ++ joinNames names, " " ++ joinNames names ++ " ",
    ", " ++ bracedNames names, importStatement source names ++ "\n",
    "\n" ++ importStatement source names]

namespace Node

/-- The nodes of the subtree at a node. -/
inductive Holds (top : Node) : Node → Prop where
  | refl : Holds top top
  | child {n c : Node} : Holds top n → c ∈ n.children → Holds top c

theorem Holds.childOfKind? {top n c : Node} {kind : String} (h : top.Holds n)
    (hc : n.childOfKind? kind = some c) : top.Holds c :=
  h.child (List.mem_of_find?_eq_some hc)

/-- The places at which a statement can be extended: where it starts, and where a node of it
ends. -/
def IsJoint (statement : Node) (offset : Nat) : Prop :=
  offset = statement.start ∨ ∃ n, statement.Holds n ∧ offset = n.stop

theorem Holds.isJoint {statement n : Node} (h : statement.Holds n) : statement.IsJoint n.stop :=
  Or.inr ⟨n, h, rfl⟩

end Node

namespace Document

variable {doc : Document}

/-! ### Seams -/

/-- Whether a node stands somewhere in the tree of a document. -/
def HasNode (doc : Document) (n : Node) : Prop :=
  ∃ s ∈ doc.root.sites, s.node = n

theorem hasNode_root : doc.HasNode doc.root :=
  ⟨Site.root doc.root, Site.mem_sites_iff.mpr .refl, rfl⟩

theorem HasNode.child {n c : Node} (h : doc.HasNode n) (hc : c ∈ n.children) :
    doc.HasNode c := by
  obtain ⟨s, hs, rfl⟩ := h
  obtain ⟨t, ht, rfl⟩ := exists_site_of_mem_children hc
  exact ⟨t, Site.mem_sites_iff.mpr ((Site.mem_sites_iff.mp hs).child ht), rfl⟩

theorem HasNode.holds {top n : Node} (htop : doc.HasNode top) (h : top.Holds n) :
    doc.HasNode n := by
  induction h with
  | refl => exact htop
  | child _ hc ih => exact ih.child hc

theorem HasNode.namedChild {n c : Node} (h : doc.HasNode n) (hc : c ∈ n.namedChildren) :
    doc.HasNode c :=
  h.child (List.mem_filter.mp hc).1

/-- The beginning of a document, and every place where a node of its tree starts or ends. -/
def IsSeam (doc : Document) (offset : Nat) : Prop :=
  offset = 0 ∨ ∃ n, doc.HasNode n ∧ (offset = n.start ∨ offset = n.stop)

theorem HasNode.isSeam_start {n : Node} (h : doc.HasNode n) : doc.IsSeam n.start :=
  Or.inr ⟨n, h, Or.inl rfl⟩

theorem HasNode.isSeam_stop {n : Node} (h : doc.HasNode n) : doc.IsSeam n.stop :=
  Or.inr ⟨n, h, Or.inr rfl⟩

theorem HasNode.isSeam_of_isJoint {n : Node} (h : doc.HasNode n) {offset : Nat}
    (hjoint : n.IsJoint offset) : doc.IsSeam offset := by
  rcases hjoint with rfl | ⟨m, hm, rfl⟩
  · exact h.isSeam_start
  · exact (h.holds hm).isSeam_stop

/-! ### The insertions -/

/-- An insertion that spells out names of a module at a seam of a document. -/
structure Spells (doc : Document) (source : String) (names : List String)
    (insertion : Insertion) : Prop where
  text_mem : insertion.text ∈ importTexts source names
  isSeam : doc.IsSeam insertion.offset

theorem mem_children_of_afterFirstChild {n : Node} {text : String} {insertion : Insertion}
    (h : Insertion.afterFirstChild n text = .ok insertion) :
    ∃ first ∈ n.children, insertion = ⟨first.stop, text⟩ := by
  unfold Insertion.afterFirstChild at h
  split at h
  next first hfirst => exact ⟨first, List.mem_of_head? hfirst, (Except.ok.inj h).symm⟩
  next => cases h

/-- A statement is extended by one of the texts, at one of its joints. -/
theorem extended_cases {statement : Node} {source : String}
    (hsource : doc.moduleOf? statement = some source) {names : List String}
    {insertion : Insertion} (h : doc.extended statement names = .ok insertion) :
    insertion.text ∈ importTexts source names ∧ statement.IsJoint insertion.offset := by
  unfold extended at h
  split at h
  next =>
    obtain ⟨first, hfirst, rfl⟩ := mem_children_of_afterFirstChild h
    exact ⟨by simp [importTexts], (Node.Holds.refl.child hfirst).isJoint⟩
  next clause hclause =>
    have hholdsClause := Node.Holds.refl.childOfKind? hclause
    split at h
    next group hgroup =>
      have hholdsGroup := hholdsClause.childOfKind? hgroup
      split at h
      next last hlast =>
        obtain rfl := Except.ok.inj h
        have hmem := (List.mem_filter.mp (List.mem_of_getLast? hlast)).1
        exact ⟨by simp [importTexts], (hholdsGroup.child hmem).isJoint⟩
      next =>
        obtain ⟨first, hfirst, rfl⟩ := mem_children_of_afterFirstChild h
        exact ⟨by simp [importTexts], (hholdsGroup.child hfirst).isJoint⟩
    next =>
      split at h
      next binding hbinding _ =>
        obtain rfl := Except.ok.inj h
        exact ⟨by simp [importTexts], (hholdsClause.childOfKind? hbinding).isJoint⟩
      next =>
        obtain rfl := Except.ok.inj h
        exact ⟨by simp [importTexts, hsource], Or.inl rfl⟩

theorem spells_extended {statement : Node} (hstatement : doc.HasNode statement) {source : String}
    (hsource : doc.moduleOf? statement = some source) {names : List String}
    {insertion : Insertion} (h : doc.extended statement names = .ok insertion) :
    doc.Spells source names insertion := by
  obtain ⟨htext, hjoint⟩ := extended_cases hsource h
  exact ⟨htext, hstatement.isSeam_of_isJoint hjoint⟩

theorem spells_newImport (source : String) (names : List String) :
    doc.Spells source names (newImport doc.root source names) := by
  unfold newImport
  split
  next first hfirst =>
    have hmem := List.mem_of_find?_eq_some hfirst
    exact ⟨by simp [importTexts], (hasNode_root.namedChild hmem).isSeam_start⟩
  next =>
    split
    next last hlast =>
      have hmem := (List.mem_filter.mp (List.mem_of_getLast? hlast)).1
      have hnamed := (List.takeWhile_sublist _).subset hmem
      exact ⟨by simp [importTexts], (hasNode_root.namedChild hnamed).isSeam_stop⟩
    next => exact ⟨by simp [importTexts], Or.inl rfl⟩

/-! ### The fix -/

theorem addNames_cases {statement : Node} {names : List String} {fix : Option Insertion}
    (h : doc.addNames statement names = .ok fix) :
    (fix = none ∧ names.filter (fun name ↦ !(doc.valueNames statement).contains name) = []) ∨
      ∃ insertion, fix = some insertion ∧
        doc.extended statement
          (names.filter fun name ↦ !(doc.valueNames statement).contains name) = .ok insertion := by
  unfold addNames at h
  dsimp only at h
  split at h
  next hnone =>
    obtain rfl := Except.ok.inj h
    exact Or.inl ⟨rfl, hnone⟩
  next =>
    cases hextended : doc.extended statement
        (names.filter fun name ↦ !(doc.valueNames statement).contains name) with
    | error fault => rw [hextended] at h; cases h
    | ok insertion =>
      rw [hextended] at h
      obtain rfl := Except.ok.inj h
      exact Or.inr ⟨insertion, rfl, rfl⟩

/-- The names that are not bound by the import of a module that would be extended. -/
def unimported (doc : Document) (source : String) (names : List String) : List String :=
  names.filter fun name ↦ !((doc.valueImport? source).elim [] doc.valueNames).contains name

theorem valueImport?_spec {source : String} {statement : Node}
    (h : doc.valueImport? source = some statement) :
    statement ∈ doc.root.namedChildren ∧ statement.isImport = true ∧
      doc.moduleOf? statement = some source := by
  have hfound := List.find?_some h
  simp only [Bool.and_eq_true, decide_eq_true_eq] at hfound
  exact ⟨List.mem_of_find?_eq_some h, hfound.1.1, hfound.2⟩

theorem addNames_of_importFix {names : List String} {source : String} {statement anchor : Node}
    {fix : Option Insertion} (hfound : doc.valueImport? source = some statement)
    (h : doc.importFix names source = .ok (anchor, fix)) :
    doc.addNames statement names = .ok fix := by
  rw [importFix, hfound] at h
  dsimp only at h
  cases hadd : doc.addNames statement names with
  | error fault => rw [hadd] at h; cases h
  | ok added =>
    rw [hadd] at h
    obtain ⟨-, rfl⟩ := Prod.mk.inj (Except.ok.inj h)
    rfl

theorem eq_newImport_of_importFix {names : List String} {source : String} {anchor : Node}
    {fix : Option Insertion} (hfound : doc.valueImport? source = none)
    (h : doc.importFix names source = .ok (anchor, fix)) :
    fix = some (newImport doc.root source names) := by
  rw [importFix, hfound] at h
  exact (Prod.mk.inj (Except.ok.inj h)).2.symm

/-- Either all names are imported already, or those that are not are spelled out at a seam. -/
theorem importFix_cases {names : List String} {source : String} {anchor : Node}
    {fix : Option Insertion} (h : doc.importFix names source = .ok (anchor, fix)) :
    (fix = none ∧ doc.unimported source names = []) ∨
      ∃ insertion, fix = some insertion ∧
        doc.Spells source (doc.unimported source names) insertion := by
  unfold unimported
  cases hfound : doc.valueImport? source with
  | none =>
    have hall : (names.filter fun name ↦
        !((none : Option Node).elim [] doc.valueNames).contains name) = names :=
      List.filter_eq_self.mpr fun _ _ ↦ rfl
    rw [hall, eq_newImport_of_importFix hfound h]
    exact Or.inr ⟨_, rfl, spells_newImport source names⟩
  | some statement =>
    obtain ⟨hmem, -, hsource⟩ := valueImport?_spec hfound
    rcases addNames_cases (addNames_of_importFix hfound h) with hnone | ⟨insertion, rfl, hextended⟩
    · exact Or.inl hnone
    · have hstatement := hasNode_root.namedChild hmem
      exact Or.inr ⟨insertion, rfl, spells_extended hstatement hsource hextended⟩

end Document

end TagScope
