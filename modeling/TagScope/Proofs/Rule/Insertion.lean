import TagScope.Proofs.Rule.Fixes
import TagScope.Proofs.Syntax.Spans

/-!
# A fix is one insertion between tokens

Offsets of trees count bytes and those of edits count characters. At a cut of the text the two name
the same place (`encode_apply_editOf`), and the seams of a tree that belongs to a text are cuts
(`isCut_of_isSeam`) that fall into no leaf (`not_inside_of_isSeam`). So fixing a text puts the text
of the one fix in between two tokens and changes nothing else (`fix_is_insertion`).
-/

set_option autoImplicit false

namespace TagScope

open Utf8 (encode IsCut)

namespace Document

variable {doc : Document} {text : List Char}

theorem isCut_of_isSeam (h : doc.SpansText text) {offset : Nat} (hseam : doc.IsSeam offset) :
    IsCut text offset := by
  rcases hseam with rfl | ⟨n, ⟨s, hs, rfl⟩, rfl | rfl⟩
  · exact Utf8.isCut_zero text
  · exact (h.cuts s hs).1
  · exact (h.cuts s hs).2

theorem not_inside_of_isSeam (h : doc.SpansText text) {offset : Nat} (hseam : doc.IsSeam offset)
    {leaf : Site} (hleaf : leaf ∈ doc.root.sites) (hchildren : leaf.node.children = []) :
    ¬ (leaf.node.start < offset ∧ offset < leaf.node.stop) := by
  rcases hseam with rfl | ⟨n, ⟨s, hs, rfl⟩, hoffset⟩
  · exact fun hinside ↦ Nat.not_lt_zero _ hinside.1
  · exact h.nest.not_inside_leaf (Site.mem_sites_iff.mp hs) (Site.mem_sites_iff.mp hleaf) hchildren
      hoffset

/-- An insertion at a cut of the text is the insertion at the same place of its encoding. -/
theorem encode_apply_editOf (hcontent : doc.content = encode text) {insertion : Insertion}
    (hcut : IsCut text insertion.offset) :
    encode ((doc.editOf insertion).apply text) =
      doc.content.take insertion.offset ++ encode insertion.text.toList ++
        doc.content.drop insertion.offset := by
  obtain ⟨front, back, rfl, hoffset⟩ := hcut.exists_append
  have hchars : doc.charsBefore insertion.offset = front.length := by
    rw [charsBefore, hcontent, hoffset]
    exact Bytes.charsBefore_encode front back
  rw [editOf, hchars, Edit.apply_insertion, hcontent, hoffset, Utf8.encode_append,
    Utf8.encode_append, Utf8.encode_append, List.take_left, List.drop_left]

end Document

theorem Edit.applyAll_nil (source : String) : Edit.applyAll source [] = source :=
  String.ofList_toList

theorem Edit.toList_applyAll_singleton (source : String) (edit : Edit) :
    (Edit.applyAll source [edit]).toList = edit.apply source.toList :=
  String.toList_ofList

namespace Rule

/-- Fixing a text is one insertion at a seam of its tree. The report has at most one fix, with an
empty range. It stands at the beginning or at an end of a node and in no leaf, and in bytes as in
characters the fixed text is the text with the insertion at that place. A report without a fix
leaves the text as it is. -/
theorem fix_is_insertion (doc : Document) (source : String) (settings : Settings)
    (hspans : doc.SpansText source.toList)
    (hgroups : ∀ s ∈ doc.root.sites, s.node.kind = "named_imports" → s.node.children ≠ []) :
    ∃ report, diagnose doc settings = .ok report ∧
      report.countP (fun d ↦ d.fix.isSome) ≤ 1 ∧
      (∀ d ∈ report, ∀ edit ∈ d.fix, edit.stop = edit.start ∧
        ∃ offset, edit.start = doc.charsBefore offset ∧
          (offset = 0 ∨ ∃ s ∈ doc.root.sites, offset = s.node.start ∨ offset = s.node.stop) ∧
          (∀ leaf ∈ doc.root.sites, leaf.node.children = [] →
            ¬ (leaf.node.start < offset ∧ offset < leaf.node.stop)) ∧
          encode (fixedText source report).toList =
            doc.content.take offset ++ encode edit.text.toList ++ doc.content.drop offset) ∧
      ((∀ d ∈ report, d.fix = none) → fixedText source report = source) := by
  obtain ⟨report, hreport⟩ := exists_diagnose_eq hgroups settings
  have hcount : report.countP (fun d ↦ d.fix.isSome) =
      (report.filterMap Diagnostic.fix).length := List.length_filterMap_eq_countP.symm
  refine ⟨report, hreport, ?_, ?_, ?_⟩
  · rcases fixes_cases hreport with hnone | ⟨insertion, hone, -⟩
    · rw [hcount, hnone]
      exact Nat.zero_le 1
    · rw [hcount, hone]
      exact Nat.le_refl 1
  · intro d hd edit hedit
    have hmem : edit ∈ report.filterMap Diagnostic.fix := List.mem_filterMap.mpr ⟨d, hd, hedit⟩
    rcases fixes_cases hreport with hnone | ⟨insertion, hone, hspells⟩
    · rw [hnone] at hmem
      simp at hmem
    · rw [hone] at hmem
      obtain rfl := List.mem_singleton.mp hmem
      refine ⟨rfl, insertion.offset, rfl, ?_, fun leaf hleaf hchildren ↦
        Document.not_inside_of_isSeam hspans hspells.isSeam hleaf hchildren, ?_⟩
      · rcases hspells.isSeam with hzero | ⟨n, ⟨s, hs, rfl⟩, hoffset⟩
        · exact Or.inl hzero
        · exact Or.inr ⟨s, hs, hoffset⟩
      · rw [fixedText, hone, Edit.toList_applyAll_singleton]
        exact Document.encode_apply_editOf hspans.content
          (Document.isCut_of_isSeam hspans hspells.isSeam)
  · intro hnone
    have hfixes : report.filterMap Diagnostic.fix = [] := List.filterMap_eq_nil_iff.mpr hnone
    rw [fixedText, hfixes, Edit.applyAll_nil]

/-- The text `// é` and, on a second line, `import "solid-js";<Show/>`. The letter takes two bytes,
so from there on the offsets of bytes and those of characters differ. -/
def accented : Document where
  content := encode "// é\nimport \"solid-js\";<Show/>".toList
  root := ⟨⟨"program", true, 0, 31, none⟩,
    [.leaf "comment" 0 5 none,
      ⟨⟨"import_statement", true, 6, 24, none⟩,
        [.mark "import" 6 12,
          ⟨⟨"string", true, 13, 23, some "source"⟩,
            [.mark "\"" 13 14, .leaf "string_fragment" 14 22 none, .mark "\"" 22 23]⟩,
          .mark ";" 23 24]⟩,
      ⟨⟨"jsx_self_closing_element", true, 24, 31, none⟩,
        [.mark "<" 24 25, .leaf "identifier" 25 29 (some "name"), .mark "/>" 29 31]⟩]⟩

theorem spansText_accented :
    accented.SpansText "// é\nimport \"solid-js\";<Show/>".toList where
  content := rfl
  nest := ⟨by decide, by decide, by decide⟩
  cuts := by decide

theorem diagnose_accented :
    diagnose accented {} = .ok [⟨.missingImports ["Show"] "solid-js", ⟨2, 0, 2, 18⟩,
      some ⟨11, 11, " \x7b Show \x7d from"⟩⟩] := by
  decide +kernel

/-- At the accented text the fix stands before character 11, which is byte 12. -/
theorem fix_is_insertion_accented :
    accented.SpansText "// é\nimport \"solid-js\";<Show/>".toList ∧
    (∀ s ∈ accented.root.sites, s.node.kind = "named_imports" → s.node.children ≠ []) ∧
    ∃ report offset, diagnose accented {} = .ok report ∧ accented.charsBefore offset = 11 ∧
      encode (fixedText "// é\nimport \"solid-js\";<Show/>" report).toList =
        accented.content.take offset ++ encode " \x7b Show \x7d from".toList ++
          accented.content.drop offset := by
  have hgroups : ∀ s ∈ accented.root.sites, s.node.kind = "named_imports" →
      s.node.children ≠ [] := by
    decide +kernel
  obtain ⟨report, hreport, -, hfix, -⟩ := fix_is_insertion accented
    "// é\nimport \"solid-js\";<Show/>" {} spansText_accented hgroups
  obtain rfl := Except.ok.inj (diagnose_accented.symm.trans hreport)
  obtain ⟨-, offset, hoffset, -, -, hbytes⟩ := hfix _ (List.mem_singleton.mpr rfl) _ rfl
  exact ⟨spansText_accented, hgroups, _, offset, diagnose_accented, Int.ofNat.inj hoffset.symm,
    hbytes⟩

end Rule

end TagScope
