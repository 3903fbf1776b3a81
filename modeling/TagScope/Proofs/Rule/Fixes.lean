import TagScope.Proofs.Imports.Seams
import TagScope.Proofs.Rule.Convergence

/-!
# The fix of a report

A report has at most one fix, that of its last diagnostic, which tells of the components missing
from the framework. `diagnose_cases` says what a report is made of, `finish_cases` what its last
diagnostic can be, and `fixes_cases` that the fixes of a report are none, or the one insertion that
spells out the missing names.
-/

set_option autoImplicit false

namespace TagScope.Rule

variable {doc : Document} {settings : Settings}

theorem names_missing_of_not_autoImport (h : settings.options.autoImport = false) :
    (scan doc settings).missing.names = [] := by
  have hnone : (unbound doc (graphOf doc settings) settings.searchBound).filter
      (awaitsImport settings.options) = [] := by
    rw [List.filter_eq_nil_iff]
    intro c _ hawaits
    simp [awaitsImport, h] at hawaits
  rw [scan_eq, hnone]
  rfl

/-- Only components of the framework are ever missing. -/
theorem mem_importable_of_mem_missing {name : String}
    (h : name ∈ (scan doc settings).missing.names) : name ∈ importable := by
  rw [scan_eq, List.mem_eraseDups] at h
  obtain ⟨c, hc, rfl⟩ := List.mem_map.mp h
  have hawaits := (List.mem_filter.mp hc).2
  simp only [awaitsImport, Bool.and_eq_true, List.contains_iff_mem] at hawaits
  exact hawaits.2

/-- The last diagnostic is the one for the missing components, if there are any. -/
theorem finish_cases {last : Option Diagnostic}
    (h : finish doc settings (scan doc settings).missing = .ok last) :
    (last = none ∧ (scan doc settings).missing.names = []) ∨
      ∃ anchor fix, (scan doc settings).missing.names ≠ [] ∧
        doc.importFix (scan doc settings).missing.names framework = .ok (anchor, fix) ∧
        last = some (Diagnostic.atNode doc anchor
          (.missingImports (scan doc settings).missing.names framework) (fix.map doc.editOf)) := by
  cases hauto : settings.options.autoImport with
  | false =>
    rw [finish, hauto, if_neg Bool.false_ne_true] at h
    exact Or.inl ⟨(Except.ok.inj h).symm, names_missing_of_not_autoImport hauto⟩
  | true =>
    rw [finish, hauto, if_pos rfl, Document.importDiagnostic] at h
    by_cases hnames : (scan doc settings).missing.names = []
    · rw [if_pos (by rw [hnames]; rfl)] at h
      exact Or.inl ⟨(Except.ok.inj h).symm, hnames⟩
    · rw [if_neg (by simpa using hnames)] at h
      cases hfix : doc.importFix (scan doc settings).missing.names framework with
      | error fault => rw [hfix] at h; cases h
      | ok found =>
        rw [hfix] at h
        exact Or.inr ⟨found.1, found.2, hnames, rfl, (Except.ok.inj h).symm⟩

theorem diagnose_of_finish {last : Option Diagnostic}
    (h : finish doc settings (scan doc settings).missing = .ok last) :
    diagnose doc settings = .ok
      (Stable.sort Diagnostic.notAfter ((scan doc settings).diagnostics ++ last.toList)) := by
  rw [diagnose, h]
  rfl

/-- A report is the stable sort of what the scan reports, followed by the last diagnostic. -/
theorem diagnose_cases {report : List Diagnostic} (h : diagnose doc settings = .ok report) :
    ∃ last, finish doc settings (scan doc settings).missing = .ok last ∧
      Stable.Sorts Diagnostic.notAfter ((scan doc settings).diagnostics ++ last.toList) report := by
  cases hfinish : finish doc settings (scan doc settings).missing with
  | error fault => rw [diagnose, hfinish] at h; cases h
  | ok last =>
    obtain rfl := Except.ok.inj ((diagnose_of_finish hfinish).symm.trans h)
    exact ⟨last, rfl, Diagnostic.sorts_report _⟩

/-- On a tree whose groups of specifiers have tokens, a report always comes about. -/
theorem exists_diagnose_eq (hgroups : doc.GroupsHaveTokens) (settings : Settings) :
    ∃ report, diagnose doc settings = .ok report := by
  have hfinish : ∃ last, finish doc settings (scan doc settings).missing = .ok last := by
    unfold finish
    split_ifs
    · by_cases hnames : (scan doc settings).missing.names = []
      · exact ⟨none, by rw [Document.importDiagnostic, hnames]; rfl⟩
      · obtain ⟨insertion, -, hdiagnostic⟩ :=
          importDiagnostic_of_ne_nil hgroups hnames framework
        exact ⟨_, hdiagnostic⟩
    · exact ⟨none, rfl⟩
  obtain ⟨last, hlast⟩ := hfinish
  exact ⟨_, diagnose_of_finish hlast⟩

theorem fix_of_mem_scan {d : Diagnostic} (h : d ∈ (scan doc settings).diagnostics) :
    d.finding.messageId ≠ .autoImport ∧ d.fix = none := by
  rw [scan_eq] at h
  obtain ⟨c, -, hreport⟩ := List.mem_filterMap.mp h
  exact fix_of_report? hreport

/-- The fixes of a report are those of its last diagnostic. -/
theorem filterMap_fix_eq {report : List Diagnostic} {last : Option Diagnostic}
    (h : Stable.Sorts Diagnostic.notAfter ((scan doc settings).diagnostics ++ last.toList) report) :
    report.filterMap Diagnostic.fix = (last.bind Diagnostic.fix).toList := by
  have hscan : (scan doc settings).diagnostics.filterMap Diagnostic.fix = [] := by
    rw [List.filterMap_eq_nil_iff]
    exact fun d hd ↦ (fix_of_mem_scan hd).2
  have hlast : last.toList.filterMap Diagnostic.fix = (last.bind Diagnostic.fix).toList := by
    cases last with
    | none => rfl
    | some d => cases hfix : d.fix <;> simp [hfix]
  have hperm := h.perm.filterMap Diagnostic.fix
  rw [List.filterMap_append, hscan, hlast, List.nil_append] at hperm
  cases hfix : last.bind Diagnostic.fix with
  | none => rw [hfix] at hperm; exact List.perm_nil.mp hperm
  | some edit => rw [hfix] at hperm; exact List.perm_singleton.mp hperm

/-- A report has no fix, or one: the insertion that spells out the missing names. -/
theorem fixes_cases {report : List Diagnostic} (h : diagnose doc settings = .ok report) :
    report.filterMap Diagnostic.fix = [] ∨
      ∃ insertion, report.filterMap Diagnostic.fix = [doc.editOf insertion] ∧
        doc.Spells framework (doc.unimported framework (scan doc settings).missing.names)
          insertion := by
  obtain ⟨last, hfinish, hsorts⟩ := diagnose_cases h
  rw [filterMap_fix_eq hsorts]
  rcases finish_cases hfinish with ⟨rfl, -⟩ | ⟨anchor, fix, -, hfix, rfl⟩
  · exact Or.inl rfl
  · rcases Document.importFix_cases hfix with ⟨rfl, -⟩ | ⟨insertion, rfl, hspells⟩
    · exact Or.inl rfl
    · exact Or.inr ⟨insertion, rfl, hspells⟩

end TagScope.Rule
