import TagScope.Proofs.Rule.Fixes
import TagScope.Proofs.Text.Columns

/-!
# Reports in the order of the text

The diagnostics of a report are sorted by line and column, and fixes are given in characters from
the beginning. Both tell the same place (`Bytes.line_column_le_iff`), so a report is the stable sort
of its diagnostics by the characters before their nodes (`diagnose_eq_map_sort`): it has them in the
order in which their nodes start in the text, and keeps the order of those that start at the same
character (`diagnose_in_text_order`).
-/

set_option autoImplicit false

namespace TagScope

/-- What is told at a node, before the node's position is taken. -/
structure Note where
  node : Node
  finding : Finding
  fix : Option Edit
deriving Repr

namespace Note

variable (doc : Document)

def placed (note : Note) : Diagnostic :=
  Diagnostic.atNode doc note.node note.finding note.fix

/-- Whether a note's node starts at the same character as another's, or before it. -/
def notAfter (a b : Note) : Bool :=
  decide (doc.charsBefore a.node.start ≤ doc.charsBefore b.node.start)

theorem notAfter_placed (a b : Note) :
    Diagnostic.notAfter (a.placed doc) (b.placed doc) = notAfter doc a b := by
  rw [Bool.eq_iff_iff, Diagnostic.notAfter_iff, notAfter, decide_eq_true_iff]
  exact Bytes.line_column_le_iff doc.content a.node.start b.node.start

/-- Sorting notes by the characters before their nodes sorts what is told by line and column. -/
theorem map_placed_sort (notes : List Note) :
    (Stable.sort (notAfter doc) notes).map (placed doc) =
      Stable.sort Diagnostic.notAfter (notes.map (placed doc)) := by
  have horder : notAfter doc = fun a b ↦ Diagnostic.notAfter (a.placed doc) (b.placed doc) := by
    funext a b
    exact (notAfter_placed doc a b).symm
  rw [horder]
  exact Stable.map_sort (placed doc) Diagnostic.notAfter notes

/-- Sorted notes have their nodes in the order of the text. -/
theorem sorts_sort (notes : List Note) :
    Stable.Sorts (notAfter doc) notes (Stable.sort (notAfter doc) notes) := by
  refine Stable.sorts_sort (fun a b ↦ ?_) (fun a b c hab hbc ↦ ?_) notes
  · rw [notAfter, notAfter, decide_eq_true_iff, decide_eq_true_iff]
    exact Nat.le_total _ _
  · rw [notAfter, decide_eq_true_iff] at hab hbc ⊢
    exact Nat.le_trans hab hbc

end Note

namespace Rule

/-- What is told of the unbound candidates where they stand, in order. -/
def candidateNotes (doc : Document) (settings : Settings) : List Note :=
  (unbound doc (graphOf doc settings) settings.searchBound).filterMap fun c ↦
    (report? doc settings.options c).map fun d ↦ ⟨c.site.node, d.finding, d.fix⟩

/-- What is told of the missing components, at the import that is extended or at the root. -/
def importNote (doc : Document) (settings : Settings) : Except ImportFault (Option Note) :=
  let names := (scan doc settings).missing.names
  if names.isEmpty then .ok none
  else
    (doc.importFix names framework).map fun (anchor, fix) ↦
      some ⟨anchor, .missingImports names framework, fix.map doc.editOf⟩

variable {doc : Document} {settings : Settings}

theorem map_placed_report? {options : Options} {c : Jsx.Candidate} {d : Diagnostic}
    (h : report? doc options c = some d) : Note.placed doc ⟨c.site.node, d.finding, d.fix⟩ = d := by
  unfold report? at h
  split at h
  · rw [← Option.some.inj h]
    rfl
  all_goals
    split_ifs at h
    rw [← Option.some.inj h]
    rfl

theorem map_placed_candidateNotes (doc : Document) (settings : Settings) :
    (candidateNotes doc settings).map (Note.placed doc) = (scan doc settings).diagnostics := by
  rw [scan_eq, candidateNotes, List.map_filterMap]
  refine List.filterMap_congr fun c _ ↦ ?_
  cases hreport : report? doc settings.options c with
  | none => rfl
  | some d => exact congrArg some (map_placed_report? hreport)

theorem finish_eq_importNote (doc : Document) (settings : Settings) :
    finish doc settings (scan doc settings).missing =
      (importNote doc settings).map (Option.map (Note.placed doc)) := by
  cases hauto : settings.options.autoImport with
  | false =>
    have hnone : (scan doc settings).missing.names = [] := names_missing_of_not_autoImport hauto
    rw [finish, hauto, if_neg Bool.false_ne_true, importNote, hnone]
    rfl
  | true =>
    rw [finish_of_autoImport hauto, Document.importDiagnostic, importNote]
    dsimp only
    split_ifs
    · rfl
    · cases doc.importFix (scan doc settings).missing.names framework with
      | error fault => rfl
      | ok found => rfl

/-- A report is what is told of the candidates and of the missing components, sorted by the
characters before the nodes. -/
theorem diagnose_eq_map_sort (doc : Document) (settings : Settings) :
    diagnose doc settings = (importNote doc settings).map fun last ↦
      (Stable.sort (Note.notAfter doc) (candidateNotes doc settings ++ last.toList)).map
        (Note.placed doc) := by
  rw [diagnose, finish_eq_importNote]
  cases importNote doc settings with
  | error fault => rfl
  | ok last =>
    refine congrArg Except.ok ?_
    dsimp only
    rw [Note.map_placed_sort, List.map_append, map_placed_candidateNotes]
    cases last <;> rfl

/-- Positions and offsets tell the same places. The characters before an offset are those before its
line and its column, lines and columns are in the order of the characters before them, and so the
diagnostics of a report are in the order in which their nodes start in the text, those of one place
as they were found. -/
theorem diagnose_in_text_order (doc : Document) :
    (∀ offset, Bytes.StartsLine doc.content (Bytes.lineStart doc.content offset) offset ∧
      doc.charsBefore offset = doc.charsBefore (Bytes.lineStart doc.content offset) +
        Bytes.column doc.content offset) ∧
    (∀ a b, (Bytes.line doc.content a < Bytes.line doc.content b ∨
        Bytes.line doc.content a = Bytes.line doc.content b ∧
          Bytes.column doc.content a ≤ Bytes.column doc.content b) ↔
      doc.charsBefore a ≤ doc.charsBefore b) ∧
    (∀ settings, diagnose doc settings = (importNote doc settings).map fun last ↦
      (Stable.sort (Note.notAfter doc) (candidateNotes doc settings ++ last.toList)).map
        (Note.placed doc)) ∧
    ∀ settings last, importNote doc settings = .ok last →
      ∃ notes : List Note, diagnose doc settings = .ok (notes.map (Note.placed doc)) ∧
        notes.Perm (candidateNotes doc settings ++ last.toList) ∧
        notes.Pairwise fun a b ↦ doc.charsBefore a.node.start ≤ doc.charsBefore b.node.start := by
  refine ⟨fun offset ↦ ⟨Bytes.startsLine_lineStart doc.content offset,
    Bytes.charsBefore_eq_add_column doc.content offset⟩, Bytes.line_column_le_iff doc.content,
    diagnose_eq_map_sort doc, ?_⟩
  intro settings last hlast
  have hsorts := Note.sorts_sort doc (candidateNotes doc settings ++ last.toList)
  refine ⟨_, ?_, hsorts.perm, hsorts.pairwise.imp of_decide_eq_true⟩
  rw [diagnose_eq_map_sort, hlast]
  rfl

end Rule

end TagScope
