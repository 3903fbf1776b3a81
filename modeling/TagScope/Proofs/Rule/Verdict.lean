import TagScope.Proofs.Imports.Fix
import TagScope.Proofs.Jsx.Candidates
import TagScope.Proofs.Report.Order
import TagScope.Proofs.Scope.Visibility
import TagScope.Rule.Check

/-!
# The verdict of the rule

What a document is told, from its tree alone. A candidate is lost when its name is not in sight of
it (`lost`), and every lost candidate is accounted for once, in order: it awaits the import of the
framework (`missing`), or it is reported where it stands (`report?`), or it is left to a type
checker. `diagnose_verdict` says that the rule finds just this, that a report always comes about,
and that it is the stable sort of these diagnostics by line and column.
-/

set_option autoImplicit false

namespace TagScope

namespace Rule

/-- Whether an unbound candidate is a component of the framework that is to be imported. -/
def awaitsImport (options : Options) (c : Jsx.Candidate) : Bool :=
  c.role = .component && options.autoImport && importable.contains c.name

/-- What is reported of an unbound candidate where it stands. -/
def report? (doc : Document) (options : Options) (c : Jsx.Candidate) : Option Diagnostic :=
  match c.role with
  | .customDirective =>
    some (Diagnostic.atNode doc c.site.node (.undefinedDirective c.name) none)
  | .component | .identifier =>
    if awaitsImport options c || options.typescriptEnabled then none
    else some (Diagnostic.atNode doc c.site.node (.undefinedName c.name) none)

/-- Whether the name of a candidate is in sight of it. -/
def InSight (doc : Document) (settings : Settings) (c : Jsx.Candidate) : Prop :=
  doc.InSight settings.sourceType settings.globals settings.options.allowGlobals c.site c.name

instance (doc : Document) (settings : Settings) (c : Jsx.Candidate) :
    Decidable (InSight doc settings c) :=
  inferInstanceAs (Decidable (doc.InSight ..))

/-- The candidates whose names are not in sight, in order. -/
def lost (doc : Document) (settings : Settings) : List Jsx.Candidate :=
  (Jsx.candidates doc).filter fun c ↦ ¬ InSight doc settings c

/-- The names of the lost components that await an import, each once. -/
def missing (doc : Document) (settings : Settings) : List String :=
  (((lost doc settings).filter (awaitsImport settings.options)).map Jsx.Candidate.name).eraseDups

/-! ### Entering candidates -/

theorem enter_eq (doc : Document) (options : Options) (scan : Scan) (c : Jsx.Candidate) :
    Scan.enter doc options scan c =
      ⟨scan.diagnostics ++ (report? doc options c).toList,
        if awaitsImport options c then scan.missing.add c.name else scan.missing⟩ := by
  have hawaits : (c.role = .component && options.autoImport && importable.contains c.name) =
      awaitsImport options c := rfl
  have hrole : awaitsImport options c = true → c.role = .component := by
    intro h
    simp only [awaitsImport, Bool.and_eq_true, decide_eq_true_eq] at h
    exact h.1.1
  rw [Scan.enter, hawaits]
  by_cases hawaits : awaitsImport options c = true
  · simp [report?, hrole hawaits, hawaits]
  · by_cases htypes : options.typescriptEnabled = true <;> cases hkind : c.role <;>
      simp [report?, hkind, hawaits, htypes]

theorem add_eraseDups (seen : List String) (name : String) :
    NameSet.add ⟨seen.eraseDups⟩ name = ⟨(seen ++ [name]).eraseDups⟩ := by
  rw [NameSet.add, NameSet.contains, List.eraseDups_append]
  by_cases hmem : name ∈ seen
  · simp [hmem, List.removeAll]
  · simp [hmem, List.removeAll]
    rfl

theorem foldl_enter (doc : Document) (options : Options) (cs : List Jsx.Candidate) :
    ∀ (diagnostics : List Diagnostic) (seen : List String),
      cs.foldl (Scan.enter doc options) ⟨diagnostics, ⟨seen.eraseDups⟩⟩ =
        ⟨diagnostics ++ cs.filterMap (report? doc options),
          ⟨(seen ++ (cs.filter (awaitsImport options)).map Jsx.Candidate.name).eraseDups⟩⟩ := by
  induction cs with
  | nil => intro diagnostics seen; simp
  | cons c rest ih =>
    intro diagnostics seen
    rw [List.foldl_cons, enter_eq, List.filter_cons]
    have hreports : diagnostics ++ (c :: rest).filterMap (report? doc options) =
        diagnostics ++ (report? doc options c).toList ++ rest.filterMap (report? doc options) := by
      rw [List.append_assoc]
      cases hreport : report? doc options c <;> simp [hreport]
    rw [hreports]
    split_ifs
    · rw [add_eraseDups, ih, List.map_cons, List.append_assoc seen]
      rfl
    · rw [ih]

/-- The scan reports the unbound candidates in order and gathers the components to be imported. -/
theorem scan_eq (doc : Document) (settings : Settings) :
    scan doc settings =
      ⟨(unbound doc (graphOf doc settings) settings.searchBound).filterMap
          (report? doc settings.options),
        ⟨(((unbound doc (graphOf doc settings) settings.searchBound).filter
          (awaitsImport settings.options)).map Jsx.Candidate.name).eraseDups⟩⟩ :=
  foldl_enter doc settings.options _ [] []

/-! ### The report -/

/-- A candidate is bound exactly when its name is in sight of it. -/
theorem isBound_iff (doc : Document) (settings : Settings)
    (hglobals : ∀ name ∈ settings.globals, name ≠ "") {c : Jsx.Candidate}
    (hc : c ∈ Jsx.candidates doc) :
    isBound (graphOf doc settings) settings.searchBound c = true ↔ InSight doc settings c :=
  (ScopeGraph.tracks_ofDocument doc settings.sourceType
    settings.globals).resolves_innermost_iff_inSight hglobals (Jsx.within_of_mem_candidates hc)
      settings.options.allowGlobals c.name

theorem unbound_eq_lost (doc : Document) (settings : Settings)
    (hglobals : ∀ name ∈ settings.globals, name ≠ "") :
    unbound doc (graphOf doc settings) settings.searchBound = lost doc settings := by
  refine List.filter_congr fun c hc ↦ ?_
  rw [Bool.eq_iff_iff, Bool.not_eq_true', ← Bool.not_eq_true, isBound_iff doc settings hglobals hc,
    decide_eq_true_iff]

theorem importDiagnostic_of_ne_nil {doc : Document} (hgroups : doc.GroupsHaveTokens)
    {names : List String} (hnames : names ≠ []) (source : String) :
    ∃ insertion, doc.importFix names source =
        .ok ((doc.valueImport? source).getD doc.root, insertion) ∧
      doc.importDiagnostic names source =
        .ok (some (Diagnostic.atNode doc ((doc.valueImport? source).getD doc.root)
          (.missingImports names source) (insertion.map doc.editOf))) := by
  obtain ⟨insertion, hfix⟩ := Document.exists_importFix_eq hgroups names source
  refine ⟨insertion, hfix, ?_⟩
  rw [Document.importDiagnostic, if_neg (by simpa using hnames), hfix]
  rfl

theorem finish_of_autoImport {doc : Document} {settings : Settings}
    (h : settings.options.autoImport = true) (set : NameSet) :
    finish doc settings set = doc.importDiagnostic set.names framework :=
  if_pos h

theorem missing_eq_nil_of_not_autoImport (doc : Document) (settings : Settings)
    (h : settings.options.autoImport = false) : missing doc settings = [] := by
  have hnone : (lost doc settings).filter (awaitsImport settings.options) = [] := by
    rw [List.filter_eq_nil_iff]
    intro c _ hawaits
    simp [awaitsImport, h] at hawaits
  rw [missing, hnone]
  rfl

/-- The rule tells a document what its tree says: a candidate is bound exactly when its name is in
sight, and the report is the stable sort of what is told of the lost candidates, in order, with one
last diagnostic for the components that await an import, if there are any. -/
theorem diagnose_verdict (doc : Document) (settings : Settings)
    (hglobals : ∀ name ∈ settings.globals, name ≠ "")
    (hgroups : ∀ s ∈ doc.root.sites, s.node.kind = "named_imports" → s.node.children ≠ []) :
    (∀ c ∈ Jsx.candidates doc,
      isBound (graphOf doc settings) settings.searchBound c = true ↔ InSight doc settings c) ∧
    ∃ report last, diagnose doc settings = .ok report ∧
      Stable.Sorts Diagnostic.notAfter
        ((lost doc settings).filterMap (report? doc settings.options) ++ last) report ∧
      (missing doc settings = [] → last = []) ∧
      (missing doc settings ≠ [] → ∃ insertion,
        doc.importFix (missing doc settings) "solid-js" =
          .ok ((doc.valueImport? "solid-js").getD doc.root, insertion) ∧
        last = [Diagnostic.atNode doc ((doc.valueImport? "solid-js").getD doc.root)
          (.missingImports (missing doc settings) "solid-js") (insertion.map doc.editOf)]) := by
  refine ⟨fun c hc ↦ isBound_iff doc settings hglobals hc, ?_⟩
  have hscan : scan doc settings = ⟨(lost doc settings).filterMap (report? doc settings.options),
      ⟨missing doc settings⟩⟩ := by
    rw [scan_eq, unbound_eq_lost doc settings hglobals]
    rfl
  have hdiagnose : ∀ last, finish doc settings ⟨missing doc settings⟩ = .ok last →
      diagnose doc settings = .ok (Stable.sort Diagnostic.notAfter
        ((lost doc settings).filterMap (report? doc settings.options) ++ last.toList)) := by
    intro last hlast
    rw [diagnose, hscan]
    dsimp only
    rw [hlast]
    rfl
  by_cases hmissing : missing doc settings = []
  · refine ⟨_, [], hdiagnose none ?_, Diagnostic.sorts_report _, fun _ ↦ rfl,
      fun hne ↦ absurd hmissing hne⟩
    rw [finish, hmissing]
    split_ifs <;> rfl
  · have hauto : settings.options.autoImport = true := by
      rw [← Bool.not_eq_false]
      exact fun h ↦ hmissing (missing_eq_nil_of_not_autoImport doc settings h)
    obtain ⟨insertion, hfix, hlast⟩ := importDiagnostic_of_ne_nil hgroups hmissing framework
    have hfinish := (finish_of_autoImport hauto ⟨missing doc settings⟩).trans hlast
    exact ⟨_, _, hdiagnose _ hfinish, Diagnostic.sorts_report _, fun h ↦ absurd h hmissing,
      fun _ ↦ ⟨insertion, hfix, rfl⟩⟩

/-- The text `function f(Box){}<Box/><Show/><Oops/>`: the parameter of the first function is in
sight of the element after it. -/
def wrapped : Document where
  content := Utf8.encode "function f(Box)\x7b\x7d<Box/><Show/><Oops/>".toList
  root := ⟨⟨"program", true, 0, 37, none⟩,
    [⟨⟨"function_declaration", true, 0, 17, none⟩,
        [.leaf "identifier" 9 10 (some "name"),
          ⟨⟨"formal_parameters", true, 10, 15, some "parameters"⟩,
            [⟨⟨"required_parameter", true, 11, 14, none⟩,
              [.leaf "identifier" 11 14 (some "pattern")]⟩]⟩,
          .leaf "statement_block" 15 17 (some "body")]⟩,
      ⟨⟨"jsx_self_closing_element", true, 17, 23, none⟩, [.leaf "identifier" 18 21 (some "name")]⟩,
      ⟨⟨"jsx_self_closing_element", true, 23, 30, none⟩, [.leaf "identifier" 24 28 (some "name")]⟩,
      ⟨⟨"jsx_self_closing_element", true, 30, 37, none⟩, [.leaf "identifier" 31 35 (some "name")]⟩]⟩

theorem diagnose_wrapped :
    (∀ name ∈ ({} : Settings).globals, name ≠ "") ∧
    (∀ s ∈ wrapped.root.sites, s.node.kind = "named_imports" → s.node.children ≠ []) ∧
    ∃ report, diagnose wrapped {} = .ok report ∧
      (report.map Diagnostic.finding).Perm
        [.undefinedName "Oops", .missingImports ["Show"] "solid-js"] := by
  have hglobals : ∀ name ∈ ({} : Settings).globals, name ≠ "" := by decide +kernel
  have hgroups : ∀ s ∈ wrapped.root.sites, s.node.kind = "named_imports" →
      s.node.children ≠ [] := by decide +kernel
  have hmissing : missing wrapped {} = ["Show"] := by decide +kernel
  have hreported : ((lost wrapped {}).filterMap (report? wrapped {})).map Diagnostic.finding =
      [.undefinedName "Oops"] := by decide +kernel
  obtain ⟨-, report, last, hreport, hsorts, -, hlast⟩ :=
    diagnose_verdict wrapped {} hglobals hgroups
  obtain ⟨insertion, -, rfl⟩ := hlast (by rw [hmissing]; decide)
  refine ⟨hglobals, hgroups, report, hreport, ?_⟩
  have hperm := hsorts.perm.map Diagnostic.finding
  rwa [List.map_append, hreported, hmissing] at hperm

end Rule

end TagScope
