import TagScope.Proofs.Rule.Fixes

/-!
# What the options of the rule take away

Which candidates are unbound does not depend on whether names are left to a type checker or missing
components are imported. These options only decide what becomes of an unbound candidate. A type
checker takes over the undefined names, and nothing else changes (`diagnose_typed`). The import
takes over the components of the framework: they are no longer reported one by one, but missing
(`scan_importing`, `names_missing_importing`), so a document is told something with it exactly if it
is told something without it (`diagnose_importing_eq_nil_iff`). `options_filter_reports` says all
this of reports that come about.
-/

set_option autoImplicit false

namespace TagScope

namespace Settings

/-- The same settings, with undefined names left to a type checker or not. -/
def typed (settings : Settings) (enabled : Bool) : Settings :=
  { settings with options := { settings.options with typescriptEnabled := enabled } }

/-- The same settings, with missing components of the framework imported or not. -/
def importing (settings : Settings) (enabled : Bool) : Settings :=
  { settings with options := { settings.options with autoImport := enabled } }

end Settings

namespace Rule

variable (doc : Document) (settings : Settings)

/-- The candidates of a document that are not bound under given settings. -/
def unresolved : List Jsx.Candidate :=
  unbound doc (graphOf doc settings) settings.searchBound

/-- Whether a candidate is a component of the framework. -/
def isImportable (c : Jsx.Candidate) : Bool :=
  c.role = .component && importable.contains c.name

/-- What a document is told of an unbound candidate if no option takes it away. -/
def told (c : Jsx.Candidate) : Diagnostic :=
  Diagnostic.atNode doc c.site.node
    (if c.role = .customDirective then .undefinedDirective c.name else .undefinedName c.name) none

theorem report?_eq (options : Options) (c : Jsx.Candidate) :
    report? doc options c =
      if c.role = .customDirective then some (told doc c)
      else if awaitsImport options c || options.typescriptEnabled then none
      else some (told doc c) := by
  rw [report?, told]
  cases hrole : c.role <;> rfl

theorem not_awaitsImport_of_customDirective {c : Jsx.Candidate} (h : c.role = .customDirective)
    (options : Options) : awaitsImport options c = false := by
  simp [awaitsImport, h]

/-! ### Names left to a type checker -/

/-- Whether a diagnostic is of another kind than that of undefined names. -/
def isNotUndefined (d : Diagnostic) : Bool :=
  d.finding.messageId ≠ .undefined

theorem report?_typed (options : Options) (c : Jsx.Candidate) :
    report? doc { options with typescriptEnabled := true } c =
      (report? doc { options with typescriptEnabled := false } c).filter isNotUndefined := by
  have hawaits : ∀ enabled, awaitsImport { options with typescriptEnabled := enabled } c =
      awaitsImport options c := fun _ ↦ rfl
  rw [report?_eq, report?_eq, hawaits, hawaits]
  by_cases hrole : c.role = .customDirective
  · have hkept : isNotUndefined (told doc c) = true := by
      rw [told, if_pos hrole]
      rfl
    rw [if_pos hrole, if_pos hrole, Option.filter_some, if_pos hkept]
  · have hdeleted : isNotUndefined (told doc c) = false := by
      rw [told, if_neg hrole]
      rfl
    rw [if_neg hrole, if_neg hrole, Bool.or_true, if_pos rfl]
    split_ifs
    · rfl
    · rw [Option.filter_some, if_neg (by rw [hdeleted]; decide)]

theorem scan_typed :
    (scan doc (settings.typed true)).diagnostics =
        (scan doc (settings.typed false)).diagnostics.filter isNotUndefined ∧
      (scan doc (settings.typed true)).missing = (scan doc (settings.typed false)).missing := by
  rw [scan_eq, scan_eq]
  refine ⟨?_, rfl⟩
  rw [List.filter_filterMap]
  exact List.filterMap_congr fun c _ ↦ report?_typed doc settings.options c

variable {doc settings}

/-- With undefined names left to a type checker, a document is told the rest of what it is told
without. -/
theorem diagnose_typed {report : List Diagnostic}
    (h : diagnose doc (settings.typed false) = .ok report) :
    diagnose doc (settings.typed true) = .ok (report.filter isNotUndefined) := by
  obtain ⟨hdiagnostics, hmissing⟩ := scan_typed doc settings
  obtain ⟨last, hlast, -⟩ := diagnose_cases h
  have hreport := Except.ok.inj ((diagnose_of_finish hlast).symm.trans h)
  have hkept : last.toList.filter isNotUndefined = last.toList := by
    rw [List.filter_eq_self]
    rcases finish_cases hlast with ⟨rfl, -⟩ | ⟨anchor, fix, -, -, rfl⟩
    · exact fun d hd ↦ absurd hd List.not_mem_nil
    · exact fun d hd ↦ List.mem_singleton.mp hd ▸ rfl
  have hfinish : finish doc (settings.typed true) (scan doc (settings.typed true)).missing =
      .ok last := by
    rw [hmissing]
    exact hlast
  rw [diagnose_of_finish hfinish, ← hreport, Diagnostic.filter_report, List.filter_append, hkept,
    hdiagnostics]

/-! ### Components that are imported -/

theorem awaitsImport_importing (c : Jsx.Candidate) (enabled : Bool) :
    awaitsImport (settings.importing enabled).options c = (enabled && isImportable c) := by
  cases enabled <;> simp [awaitsImport, isImportable, Settings.importing]

theorem report?_importing (c : Jsx.Candidate) (enabled : Bool) :
    report? doc ((settings.typed false).importing enabled).options c =
      if enabled && isImportable c then none else some (told doc c) := by
  have hawaits : awaitsImport ((settings.typed false).importing enabled).options c =
      (enabled && isImportable c) := awaitsImport_importing c enabled
  rw [report?_eq, ← hawaits]
  by_cases hrole : c.role = .customDirective
  · rw [if_pos hrole, not_awaitsImport_of_customDirective hrole, if_neg Bool.false_ne_true]
  · rw [if_neg hrole]
    have htypes : ((settings.typed false).importing enabled).options.typescriptEnabled = false :=
      rfl
    rw [htypes, Bool.or_false]

variable (doc settings)

/-- Where names are not left to a type checker, the import takes away the reports of the components
of the framework and no others. -/
theorem scan_importing (enabled : Bool) :
    (scan doc ((settings.typed false).importing enabled)).diagnostics =
      ((unresolved doc settings).filter fun c ↦ !(enabled && isImportable c)).map (told doc) := by
  have hreports : (scan doc ((settings.typed false).importing enabled)).diagnostics =
      (unresolved doc settings).filterMap
        (report? doc ((settings.typed false).importing enabled).options) := by
    rw [scan_eq]
    rfl
  rw [hreports, ← List.filterMap_eq_map, List.filterMap_filter]
  refine List.filterMap_congr fun c _ ↦ ?_
  rw [report?_importing]
  by_cases htaken : (enabled && isImportable c) = true
  · rw [if_pos htaken, htaken]
    rfl
  · rw [if_neg htaken, Bool.eq_false_iff.mpr htaken]
    rfl

/-- What the import takes away is missing, each name once. -/
theorem names_missing_importing (enabled : Bool) :
    (scan doc (settings.importing enabled)).missing.names =
      (((unresolved doc settings).filter fun c ↦ enabled && isImportable c).map
        Jsx.Candidate.name).eraseDups := by
  have hawaits : awaitsImport (settings.importing enabled).options =
      fun c ↦ enabled && isImportable c := funext fun c ↦ awaitsImport_importing c enabled
  rw [scan_eq, hawaits]
  rfl

variable {doc settings}

/-- A document is told nothing exactly if nothing is reported or missing. -/
theorem diagnose_eq_nil_iff {report : List Diagnostic} (h : diagnose doc settings = .ok report) :
    report = [] ↔
      (scan doc settings).diagnostics = [] ∧ (scan doc settings).missing.names = [] := by
  obtain ⟨last, hlast, hsorts⟩ := diagnose_cases h
  have hnil : report = [] ↔ (scan doc settings).diagnostics ++ last.toList = [] :=
    ⟨fun heq ↦ List.nil_perm.mp (heq ▸ hsorts.perm), fun heq ↦ List.perm_nil.mp (heq ▸ hsorts.perm)⟩
  rw [hnil, List.append_eq_nil_iff]
  refine and_congr_right fun _ ↦ ?_
  rcases finish_cases hlast with ⟨rfl, hnames⟩ | ⟨anchor, fix, hnames, -, rfl⟩
  · simp [hnames]
  · simp [hnames]

theorem eraseDups_eq_nil_iff {names : List String} : names.eraseDups = [] ↔ names = [] := by
  cases names with
  | nil => exact Iff.rfl
  | cons name rest => simp [List.eraseDups_cons]

/-- Whether missing components are imported or not, a document is told nothing exactly if all its
candidates are bound. -/
theorem diagnose_importing_eq_nil_iff {enabled : Bool} {report : List Diagnostic}
    (h : diagnose doc ((settings.typed false).importing enabled) = .ok report) :
    report = [] ↔ unresolved doc settings = [] := by
  rw [diagnose_eq_nil_iff h, scan_importing, names_missing_importing, eraseDups_eq_nil_iff,
    List.map_eq_nil_iff, List.map_eq_nil_iff, List.filter_eq_nil_iff, List.filter_eq_nil_iff]
  change (∀ c ∈ unresolved doc settings, _) ∧ (∀ c ∈ unresolved doc settings, _) ↔ _
  rw [List.eq_nil_iff_forall_not_mem, ← forall₂_and]
  refine forall_congr' fun c ↦ imp_congr_right fun _ ↦ ?_
  cases enabled && isImportable c <;> simp

theorem fix_of_mem_report {report : List Diagnostic}
    (h : diagnose doc (settings.importing false) = .ok report) {d : Diagnostic} (hd : d ∈ report) :
    d.fix = none := by
  obtain ⟨last, hlast, hsorts⟩ := diagnose_cases h
  obtain rfl : none = last := Except.ok.inj hlast
  rw [Option.toList_none, List.append_nil] at hsorts
  exact (fix_of_mem_scan (hsorts.perm.mem_iff.mp hd)).2

/-- The options of the rule act on reports as filters. Leaving names to a type checker deletes the
undefined names from the report. Where they are not left to it, every unbound candidate is reported
unless it is a component of the framework and these are imported; then it is missing, so the report
is empty with the import exactly if it is without. Without the import no diagnostic has a fix. -/
theorem options_filter_reports (doc : Document) (settings : Settings)
    (hgroups : ∀ s ∈ doc.root.sites, s.node.kind = "named_imports" → s.node.children ≠ []) :
    (∃ report, diagnose doc (settings.typed false) = .ok report ∧
      diagnose doc (settings.typed true) =
        .ok (report.filter fun d ↦ d.finding.messageId ≠ .undefined)) ∧
    ((scan doc ((settings.typed false).importing false)).diagnostics =
        (unresolved doc settings).map (told doc) ∧
      (scan doc ((settings.typed false).importing true)).diagnostics =
        ((unresolved doc settings).filter fun c ↦ !isImportable c).map (told doc) ∧
      (scan doc ((settings.typed false).importing true)).missing.names =
        (((unresolved doc settings).filter isImportable).map Jsx.Candidate.name).eraseDups) ∧
    (∃ imported reported, diagnose doc ((settings.typed false).importing true) = .ok imported ∧
      diagnose doc ((settings.typed false).importing false) = .ok reported ∧
      (imported = [] ↔ reported = [])) ∧
    ∃ report, diagnose doc (settings.importing false) = .ok report ∧
      ∀ d ∈ report, d.fix = none := by
  refine ⟨?_, ⟨?_, ?_, ?_⟩, ?_, ?_⟩
  · obtain ⟨report, hreport⟩ := exists_diagnose_eq hgroups (settings.typed false)
    exact ⟨report, hreport, diagnose_typed hreport⟩
  · simpa using scan_importing doc settings false
  · exact scan_importing doc settings true
  · exact names_missing_importing doc (settings.typed false) true
  · obtain ⟨imported, himported⟩ :=
      exists_diagnose_eq hgroups ((settings.typed false).importing true)
    obtain ⟨reported, hreported⟩ :=
      exists_diagnose_eq hgroups ((settings.typed false).importing false)
    refine ⟨imported, reported, himported, hreported, ?_⟩
    rw [diagnose_importing_eq_nil_iff himported, diagnose_importing_eq_nil_iff hreported]
  · obtain ⟨report, hreport⟩ := exists_diagnose_eq hgroups (settings.importing false)
    exact ⟨report, hreport, fun d hd ↦ fix_of_mem_report hreport hd⟩

/-- The document `wrapped` lacks `Show` and `Oops`. The first is left to the import, the second to
a type checker. -/
theorem options_filter_reports_wrapped :
    (∀ s ∈ wrapped.root.sites, s.node.kind = "named_imports" → s.node.children ≠ []) ∧
    (unresolved wrapped {}).map Jsx.Candidate.name = ["Show", "Oops"] ∧
    (scan wrapped (Settings.importing {} false)).diagnostics.length = 2 ∧
    (scan wrapped (Settings.importing {} true)).missing.names = ["Show"] ∧
    ∃ report, diagnose wrapped (Settings.typed {} true) = .ok report ∧
      report.map Diagnostic.finding = [.missingImports ["Show"] "solid-js"] := by
  have hgroups : ∀ s ∈ wrapped.root.sites, s.node.kind = "named_imports" →
      s.node.children ≠ [] := by decide +kernel
  have hnames : (unresolved wrapped {}).map Jsx.Candidate.name = ["Show", "Oops"] := by
    decide +kernel
  have hfindings : ∃ report, diagnose wrapped {} = .ok report ∧
      (report.filter fun d ↦ d.finding.messageId ≠ .undefined).map Diagnostic.finding =
        [.missingImports ["Show"] "solid-js"] := by
    refine ⟨_, rfl, ?_⟩
    decide +kernel
  obtain ⟨⟨report, hreport, htyped⟩, ⟨hreported, -, hmissing⟩, -, -⟩ :=
    options_filter_reports wrapped {} hgroups
  obtain ⟨found, hfound, hfindings⟩ := hfindings
  obtain rfl := Except.ok.inj (hfound.symm.trans hreport)
  refine ⟨hgroups, hnames, ?_, ?_, _, htyped, hfindings⟩
  · have hlength := congrArg List.length hnames
    rw [List.length_map] at hlength
    exact (congrArg List.length hreported).trans ((List.length_map _).trans hlength)
  · refine hmissing.trans ?_
    decide +kernel

end Rule

end TagScope
