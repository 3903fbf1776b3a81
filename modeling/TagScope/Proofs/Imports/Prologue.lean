import TagScope.Proofs.Imports.Seams
import TagScope.Proofs.Syntax.Spans

/-!
# Imports stand below the prologue

A program opens with a run of comments, hashbang lines and directives, as long as it lasts
(`Node.OpensWith`). The hashbang lines and directives of that run have to stay where they are.
Statements that import are none of the three, so they all are below the run, and a text put into
one is too. A new statement is put above the first import, or after the last hashbang line or
directive of the run, which is no further down than the statements that follow the run.
-/

set_option autoImplicit false

namespace TagScope

namespace Node

/-- The named children of a root are the longest leading run of comments, hashbang lines and
directives, and then the rest. -/
structure OpensWith (root : Node) (run rest : List Node) : Prop where
  split : root.namedChildren = run ++ rest
  heading : ∀ n ∈ run, n.isComment = true ∨ n.isPrologue = true
  longest : ∀ n ∈ rest.head?, n.isComment = false ∧ n.isPrologue = false

theorem kind_of_isPrologue {n : Node} (h : n.isPrologue = true) :
    n.kind = "hash_bang_line" ∨ n.kind = "expression_statement" := by
  simp only [isPrologue, isStringStatement, Bool.or_eq_true, Bool.and_eq_true,
    decide_eq_true_eq] at h
  exact h.imp id And.left

theorem isComment_of_isPrologue {n : Node} (h : n.isPrologue = true) : n.isComment = false := by
  rw [isComment, decide_eq_false_iff_not]
  rcases kind_of_isPrologue h with hkind | hkind <;> simp [hkind]

namespace OpensWith

variable {root : Node} {run rest : List Node}

theorem not_isImport (h : root.OpensWith run rest) {n : Node} (hn : n ∈ run) :
    n.isImport = false := by
  have hkind : n.kind = "comment" ∨ n.kind = "hash_bang_line" ∨ n.kind = "expression_statement" :=
    (h.heading n hn).imp of_decide_eq_true kind_of_isPrologue
  rw [isImport, decide_eq_false_iff_not]
  rcases hkind with hkind | hkind | hkind <;> simp [hkind]

theorem mem_rest_of_isImport (h : root.OpensWith run rest) {n : Node} (hn : n ∈ root.namedChildren)
    (himport : n.isImport = true) : n ∈ rest := by
  rw [h.split] at hn
  refine (List.mem_append.mp hn).resolve_left fun hrun ↦ ?_
  rw [h.not_isImport hrun] at himport
  cases himport

theorem takeWhile_eq (h : root.OpensWith run rest) :
    (root.namedChildren.takeWhile fun n ↦ n.isComment || n.isPrologue) = run := by
  rw [h.split, List.takeWhile_append_of_pos fun n hn ↦ (Bool.or_eq_true _ _).mpr (h.heading n hn)]
  cases rest with
  | nil => exact List.append_nil run
  | cons next rest =>
    obtain ⟨hcomment, hprologue⟩ := h.longest next rfl
    rw [List.takeWhile_cons_of_neg (by simp [hcomment, hprologue]), List.append_nil]

theorem prologueEnd?_eq (h : root.OpensWith run rest) :
    root.prologueEnd? = (run.filter fun n ↦ !n.isComment).getLast? := by
  rw [prologueEnd?, h.takeWhile_eq]

end OpensWith

end Node

/-- The last of several nodes that stand in order ends last. -/
theorem stop_le_of_getLast? {nodes : List Node} (hspan : ∀ n ∈ nodes, n.start ≤ n.stop)
    (horder : nodes.Pairwise fun a b ↦ a.stop ≤ b.start) {last : Node}
    (hlast : nodes.getLast? = some last) {n : Node} (hn : n ∈ nodes) : n.stop ≤ last.stop := by
  obtain ⟨front, rfl⟩ := List.getLast?_eq_some_iff.mp hlast
  rcases List.mem_append.mp hn with hfront | hself
  · have hbefore : n.stop ≤ last.start :=
      (List.pairwise_append.mp horder).2.2 n hfront last (List.mem_singleton_self last)
    exact Nat.le_trans hbefore (hspan last (by simp))
  · obtain rfl := List.mem_singleton.mp hself
    exact Nat.le_refl _

namespace Document

variable {doc : Document} {run rest : List Node}

theorem start_le_of_isJoint (hspans : doc.root.SpansNest) {statement : Node}
    (hstatement : doc.HasNode statement) {offset : Nat} (hjoint : statement.IsJoint offset) :
    statement.start ≤ offset := by
  have hstart : ∀ n, statement.Holds n → statement.start ≤ n.start := by
    intro n hn
    induction hn with
    | refl => exact Nat.le_refl _
    | child hn hc ih =>
      obtain ⟨s, hs, rfl⟩ := hstatement.holds hn
      exact Nat.le_trans ih (hspans.inside s hs _ hc).1
  rcases hjoint with rfl | ⟨n, hn, rfl⟩
  · exact Nat.le_refl _
  · obtain ⟨s, hs, rfl⟩ := hstatement.holds hn
    exact Nat.le_trans (hstart _ hn) (hspans.ordered s hs)

theorem pairwise_namedChildren (hspans : doc.root.SpansNest) :
    doc.root.namedChildren.Pairwise fun a b ↦ a.stop ≤ b.start :=
  (hspans.apart (Site.root doc.root) (Site.mem_sites_iff.mpr .refl)).filter _

theorem start_le_stop_of_mem_namedChildren (hspans : doc.root.SpansNest) {n : Node}
    (hn : n ∈ doc.root.namedChildren) : n.start ≤ n.stop := by
  obtain ⟨s, hs, rfl⟩ := hasNode_root.namedChild hn
  exact hspans.ordered s hs

/-- An offset below every hashbang line and directive of the opening run and, if a program imports
nothing, above everything that follows the run. -/
def KeepsPrologue (doc : Document) (run rest : List Node) (offset : Nat) : Prop :=
  (∀ n ∈ run, n.isPrologue = true → n.stop ≤ offset) ∧
    ((∀ n ∈ doc.root.namedChildren, n.isImport = false) → ∀ n ∈ rest, offset ≤ n.start)

/-- All that is not above an import statement is below the prologue. -/
theorem keepsPrologue_of_isImport (hspans : doc.root.SpansNest)
    (hopens : doc.root.OpensWith run rest) {statement : Node}
    (hstatement : statement ∈ doc.root.namedChildren) (himport : statement.isImport = true)
    {offset : Nat} (hle : statement.start ≤ offset) : doc.KeepsPrologue run rest offset := by
  have horder := pairwise_namedChildren hspans
  rw [hopens.split] at horder
  refine ⟨fun n hn _ ↦ ?_, fun hnone ↦ ?_⟩
  · have hbelow := hopens.mem_rest_of_isImport hstatement himport
    exact Nat.le_trans ((List.pairwise_append.mp horder).2.2 n hn statement hbelow) hle
  · rw [hnone statement hstatement] at himport
    cases himport

theorem keepsPrologue_newImport (hspans : doc.root.SpansNest)
    (hopens : doc.root.OpensWith run rest) (source : String) (names : List String) :
    doc.KeepsPrologue run rest (newImport doc.root source names).offset := by
  unfold newImport
  dsimp only
  split
  next first hfirst =>
    exact keepsPrologue_of_isImport hspans hopens (List.mem_of_find?_eq_some hfirst)
      (List.find?_some hfirst) (Nat.le_refl _)
  next =>
    have horder := pairwise_namedChildren hspans
    rw [hopens.split] at horder
    obtain ⟨hrunOrder, -, hcross⟩ := List.pairwise_append.mp horder
    have hmem : ∀ n ∈ run, n ∈ doc.root.namedChildren := fun n hn ↦ by
      rw [hopens.split]
      exact List.mem_append_left rest hn
    have hfilter : ∀ n ∈ run, n.isPrologue = true → n ∈ run.filter fun n ↦ !n.isComment := by
      intro n hn hprologue
      exact List.mem_filter.mpr ⟨hn, by simp [Node.isComment_of_isPrologue hprologue]⟩
    rw [hopens.prologueEnd?_eq]
    split
    next last hlast =>
      refine ⟨fun n hn hprologue ↦ ?_, fun _ n hn ↦ ?_⟩
      · refine stop_le_of_getLast? (fun m hm ↦ ?_) (hrunOrder.filter _) hlast
          (hfilter n hn hprologue)
        exact start_le_stop_of_mem_namedChildren hspans (hmem m (List.mem_filter.mp hm).1)
      · exact hcross last (List.mem_filter.mp (List.mem_of_getLast? hlast)).1 n hn
    next hempty =>
      refine ⟨fun n hn hprologue ↦ ?_, fun _ n _ ↦ Nat.zero_le n.start⟩
      have hnone := hfilter n hn hprologue
      rw [List.getLast?_eq_none_iff.mp hempty] at hnone
      cases hnone

theorem keepsPrologue_importFix (hspans : doc.root.SpansNest)
    (hopens : doc.root.OpensWith run rest) {names : List String} {source : String} {anchor : Node}
    {insertion : Insertion} (h : doc.importFix names source = .ok (anchor, some insertion)) :
    doc.KeepsPrologue run rest insertion.offset := by
  cases hfound : doc.valueImport? source with
  | none =>
    obtain rfl := Option.some.inj (eq_newImport_of_importFix hfound h)
    exact keepsPrologue_newImport hspans hopens source names
  | some statement =>
    obtain ⟨hmem, himport, hsource⟩ := valueImport?_spec hfound
    rcases addNames_cases (addNames_of_importFix hfound h) with ⟨hnone, -⟩ | ⟨_, hsome, hextended⟩
    · cases hnone
    · obtain rfl := Option.some.inj hsome
      have hstart := start_le_of_isJoint hspans (hasNode_root.namedChild hmem)
        (extended_cases hsource hextended).2
      exact keepsPrologue_of_isImport hspans hopens hmem himport hstart

/-- A diagnostic of missing names has the fix that was found for them. -/
theorem importFix_of_importDiagnostic {names : List String} {source : String}
    {diagnostic : Diagnostic} {edit : Edit}
    (h : doc.importDiagnostic names source = .ok (some diagnostic))
    (hfix : diagnostic.fix = some edit) :
    ∃ anchor insertion, doc.importFix names source = .ok (anchor, some insertion) ∧
      edit = doc.editOf insertion := by
  rw [importDiagnostic] at h
  split at h
  next => cases h
  next =>
    cases hfound : doc.importFix names source with
    | error fault => rw [hfound] at h; cases h
    | ok found =>
      obtain ⟨anchor, fix⟩ := found
      rw [hfound] at h
      obtain rfl := Option.some.inj (Except.ok.inj h)
      obtain ⟨insertion, rfl, hedit⟩ := Option.map_eq_some_iff.mp hfix
      exact ⟨anchor, insertion, rfl, hedit.symm⟩

/-- An import never displaces the prologue. If the diagnostic of missing names has a fix, the fix is
an insertion that is found for them, at or after the end of every hashbang line and directive of the
opening run; and if nothing is imported, it is at or before the start of all that follows the
run. -/
theorem importDiagnostic_keeps_prologue (hspans : doc.root.SpansNest)
    (hopens : doc.root.OpensWith run rest) {names : List String} {source : String}
    {diagnostic : Diagnostic} {edit : Edit}
    (h : doc.importDiagnostic names source = .ok (some diagnostic))
    (hfix : diagnostic.fix = some edit) :
    ∃ anchor insertion, doc.importFix names source = .ok (anchor, some insertion) ∧
      edit = doc.editOf insertion ∧
      (∀ n ∈ run, n.isPrologue = true → n.stop ≤ insertion.offset) ∧
      ((∀ n ∈ doc.root.namedChildren, n.isImport = false) →
        ∀ n ∈ rest, insertion.offset ≤ n.start) := by
  obtain ⟨anchor, insertion, hfound, hedit⟩ := importFix_of_importDiagnostic h hfix
  exact ⟨anchor, insertion, hfound, hedit, keepsPrologue_importFix hspans hopens hfound⟩

/-- The text `#!a`, then on a second line `/**/"x";//c`, and on a third `f()`. -/
def headed : Document where
  content := Utf8.encode "#!a\n/**/\"x\";//c\nf()".toList
  root := ⟨⟨"program", true, 0, 19, none⟩,
    [.leaf "hash_bang_line" 0 3 none,
      .leaf "comment" 4 8 none,
      ⟨⟨"expression_statement", true, 8, 12, none⟩,
        [.leaf "string" 8 11 none, .mark ";" 11 12]⟩,
      .leaf "comment" 12 15 none,
      ⟨⟨"expression_statement", true, 16, 19, none⟩, [.leaf "call_expression" 16 19 none]⟩]⟩

theorem opensWith_headed :
    headed.root.OpensWith (headed.root.namedChildren.take 4)
      (headed.root.namedChildren.drop 4) where
  split := (List.take_append_drop 4 _).symm
  heading := by decide +kernel
  longest := by decide +kernel

/-- Below a hashbang line, a comment and a directive, a statement is put in right after the
directive. -/
theorem importDiagnostic_keeps_prologue_headed :
    headed.importDiagnostic ["Show"] "solid-js" = .ok (some ⟨.missingImports ["Show"] "solid-js",
      ⟨1, 0, 3, 3⟩, some ⟨12, 12, "\nimport \x7b Show \x7d from \"solid-js\";"⟩⟩) ∧
    ∃ anchor insertion, headed.importFix ["Show"] "solid-js" = .ok (anchor, some insertion) ∧
      insertion.offset = 12 ∧
      (∀ n ∈ headed.root.namedChildren.take 4, n.isPrologue = true → n.stop ≤ 12) ∧
      ∀ n ∈ headed.root.namedChildren.drop 4, 12 ≤ n.start := by
  have hdiagnostic : headed.importDiagnostic ["Show"] "solid-js" =
      .ok (some ⟨.missingImports ["Show"] "solid-js", ⟨1, 0, 3, 3⟩,
        some ⟨12, 12, "\nimport \x7b Show \x7d from \"solid-js\";"⟩⟩) := by
    decide +kernel
  obtain ⟨anchor, insertion, hfound, -, habove, hbelow⟩ :=
    importDiagnostic_keeps_prologue ⟨by decide +kernel, by decide +kernel, by decide +kernel⟩
      opensWith_headed hdiagnostic rfl
  have hoffset : insertion.offset = 12 := by
    have hnew := Option.some.inj (eq_newImport_of_importFix rfl hfound)
    rw [hnew]
    decide +kernel
  rw [hoffset] at habove hbelow
  exact ⟨hdiagnostic, anchor, insertion, hfound, hoffset, habove, hbelow (by decide +kernel)⟩

end Document

end TagScope
