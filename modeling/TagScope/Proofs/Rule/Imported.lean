import TagScope.Proofs.Imports.Spelling
import TagScope.Proofs.Rule.Fixes
import TagScope.Proofs.Syntax.Spans

/-!
# What is imported is never missing

Import statements are read twice: the fix reads which names the import to be extended binds
(`Document.valueNames`), and the scope graph which names a statement declares (`importedNames`). The
first are among the second (`mem_importedNames_of_mem_valueNames`), and those of a statement at the
top level are bound everywhere (`isBound_of_imported`). So a missing name is never one that the fix
would skip, and every report of missing names has a fix that spells all of them
(`autoImport_spells_missing`).
-/

set_option autoImplicit false

namespace TagScope

/-! ### Two readings of an import statement -/

namespace Site

variable {s : Site} {doc : Document}

theorem map_node_child? (s : Site) (field : String) :
    (s.child? field).map node = s.node.child? field := by
  rw [Node.child?, ← s.map_node_children, List.find?_map]
  rfl

theorem map_node_childOfKind? (s : Site) (kind : String) :
    (s.childOfKind? kind).map node = s.node.childOfKind? kind := by
  rw [Node.childOfKind?, ← s.map_node_children, List.find?_map]
  rfl

theorem map_node_specifierName? (s : Site) :
    s.specifierName?.map node = (s.node.child? "alias").or (s.node.child? "name") := by
  rw [specifierName?, Option.map_or, map_node_child?, map_node_child?]

/-- The names that an import binds as values are among those that it declares. A statement with the
clause of a required module declares the name of the module alone, so it must not have another. -/
theorem mem_importedNames_of_mem_valueNames {name : String}
    (hclauses : s.node.childOfKind? "import_require_clause" = none ∨
      s.node.childOfKind? "import_clause" = none)
    (h : name ∈ doc.valueNames s.node) : name ∈ s.importedNames doc := by
  unfold Document.valueNames at h
  rw [← s.map_node_childOfKind? "import_clause"] at h hclauses
  rw [← s.map_node_childOfKind? "import_require_clause"] at hclauses
  cases hclause : s.childOfKind? "import_clause" with
  | none => rw [hclause] at h; simp at h
  | some clause =>
    rw [hclause] at h hclauses
    have hrequire : s.childOfKind? "import_require_clause" = none := by simpa using hclauses
    obtain ⟨groupNode, hgroupNode, hspecifiers⟩ := List.mem_flatMap.mp h
    obtain ⟨hgroupMem, hgroupKind⟩ := List.mem_filter.mp hgroupNode
    obtain ⟨group, hgroup, rfl⟩ := Document.exists_site_of_mem_children hgroupMem
    obtain ⟨specifierNode, hspecifierNode, hname⟩ := List.mem_filterMap.mp hspecifiers
    obtain ⟨hspecifierMem, hspecifierKind⟩ :=
      List.mem_filter.mp (List.mem_filter.mp hspecifierNode).1
    obtain ⟨specifier, hspecifier, rfl⟩ := Document.exists_site_of_mem_children hspecifierMem
    rw [← map_node_specifierName?] at hname
    cases hidentifier : specifier.specifierName? with
    | none => rw [hidentifier] at hname; simp at hname
    | some identifier =>
      rw [hidentifier] at hname
      have hpart : identifier ∈ group.importClausePart := by
        rw [importClausePart, of_decide_eq_true hgroupKind]
        exact List.mem_filterMap.mpr ⟨specifier,
          List.mem_filter.mpr ⟨hspecifier, hspecifierKind⟩, hidentifier⟩
      have hsite : identifier ∈ s.importedSites := by
        rw [importedSites, hrequire, hclause]
        exact List.mem_flatMap.mpr ⟨group, hgroup, hpart⟩
      exact List.mem_map.mpr ⟨identifier, hsite, Option.some.inj hname⟩

end Site

/-- What an import statement at the top level declares is bound in the scope of the root. -/
theorem Document.binds_rootPlace_of_imported {doc : Document} {s : Site}
    (hs : s ∈ (Site.root doc.root).children) (himport : s.isImportStatement = true)
    {name : String} (hname : name ∈ s.importedNames doc) (hne : name ≠ "")
    (sourceType : SourceType) : doc.Binds sourceType sourceType.rootPlace name := by
  obtain ⟨identifier, hidentifier, rfl⟩ := List.mem_map.mp hname
  have hchain : s.chain sourceType = sourceType.rootPlaces := by
    rw [Site.chain_of_mem_children hs, Site.opensScope_of_isImportStatement himport]
    rfl
  have hdeclared : ⟨.current, "import", identifier⟩ ∈ s.declarations := by
    rw [Site.declarations_of_isImportStatement himport]
    exact List.mem_map_of_mem hidentifier
  refine ⟨s, Site.mem_tail_of_mem_children .refl hs, _, hdeclared, ?_, rfl, hne⟩
  rw [hchain]
  exact sourceType.head?_rootPlaces

namespace Rule

variable {doc : Document} {settings : Settings}

/-- A name that is bound at the top level is bound wherever it is used. -/
theorem isBound_of_binds_rootPlace {c : Jsx.Candidate} (hc : c ∈ Jsx.candidates doc)
    (h : doc.Binds settings.sourceType settings.sourceType.rootPlace c.name) :
    isBound (graphOf doc settings) settings.searchBound c = true := by
  have htracks := ScopeGraph.tracks_ofDocument doc settings.sourceType settings.globals
  have hreached : settings.sourceType.rootPlace ∈
      ScopeGraph.reachedPlaces settings.sourceType settings.options.allowGlobals := by
    cases settings.sourceType <;> cases settings.options.allowGlobals <;> decide
  refine (htracks.resolves_innermost_iff (Jsx.within_of_mem_candidates hc) _ c.name).mpr
    (Or.inr ⟨settings.sourceType.rootPlace, ?_, Or.inr h⟩)
  exact List.mem_append_left _ (List.mem_append_right _ hreached)

theorem not_isBound_of_mem_missing {name : String}
    (h : name ∈ (scan doc settings).missing.names) :
    ∃ c ∈ Jsx.candidates doc, c.name = name ∧
      isBound (graphOf doc settings) settings.searchBound c = false := by
  rw [scan_eq, List.mem_eraseDups] at h
  obtain ⟨c, hc, rfl⟩ := List.mem_map.mp h
  obtain ⟨hcandidate, hunbound⟩ := List.mem_filter.mp (List.mem_filter.mp hc).1
  exact ⟨c, hcandidate, rfl, by simpa using hunbound⟩

/-- No statement has the clause of a required module and an import clause. -/
def OneClauseEach (doc : Document) : Prop :=
  ∀ s ∈ doc.root.sites, s.node.kind = "import_statement" →
    s.node.childOfKind? "import_require_clause" = none ∨
      s.node.childOfKind? "import_clause" = none

/-- What the import to be extended binds is not missing. -/
theorem not_mem_missing_of_mem_valueNames (hclauses : OneClauseEach doc) {source name : String}
    {statement : Node} (hfound : doc.valueImport? source = some statement)
    (hname : name ∈ doc.valueNames statement) : name ∉ (scan doc settings).missing.names := by
  intro hmissing
  obtain ⟨c, hc, rfl, hunbound⟩ := not_isBound_of_mem_missing hmissing
  obtain ⟨hmem, himport, -⟩ := Document.valueImport?_spec hfound
  obtain ⟨hchild, hnamed⟩ := List.mem_filter.mp hmem
  obtain ⟨s, hs, rfl⟩ := Document.exists_site_of_mem_children (p := Site.root doc.root) hchild
  have hsite : s ∈ doc.root.sites := Site.mem_sites_iff.mpr (Site.Within.refl.child hs)
  have hkind : s.node.kind = "import_statement" := of_decide_eq_true himport
  have hstatement : s.isImportStatement = true := by
    simp [Site.isImportStatement, hnamed, hkind]
  have himported : c.name ∈ s.importedNames doc :=
    Site.mem_importedNames_of_mem_valueNames (hclauses s hsite hkind) hname
  have hne : c.name ≠ "" := by
    have himportable := mem_importable_of_mem_missing hmissing
    intro hempty
    rw [hempty] at himportable
    exact absurd himportable (by decide)
  have hbound : isBound (graphOf doc settings) settings.searchBound c = true :=
    isBound_of_binds_rootPlace hc
      (Document.binds_rootPlace_of_imported hs hstatement himported hne settings.sourceType)
  rw [hbound] at hunbound
  cases hunbound

theorem unimported_missing (hclauses : OneClauseEach doc) (source : String) :
    doc.unimported source (scan doc settings).missing.names =
      (scan doc settings).missing.names := by
  rw [Document.unimported, List.filter_eq_self]
  intro name hname
  cases hfound : doc.valueImport? source with
  | none => rfl
  | some statement =>
    have hnot : name ∉ doc.valueNames statement :=
      fun hmem ↦ not_mem_missing_of_mem_valueNames hclauses hfound hmem hname
    simpa using hnot

/-- The components of the framework are names that a fix can spell and prose can quote. -/
theorem isSpellable_of_mem_importable {name : String} (h : name ∈ importable) :
    Import.IsSpellable name.toList ∧ '\'' ∉ name.toList := by
  simp only [importable, List.mem_cons, List.not_mem_nil, or_false] at h
  rcases h with rfl | rfl | rfl | rfl | rfl <;> exact ⟨⟨by decide, by decide⟩, by decide⟩

/-- What a scan reports tells of no missing imports, so such a diagnostic is the last one. -/
theorem eq_last_of_autoImport {report : List Diagnostic} {last : Option Diagnostic}
    (h : Stable.Sorts Diagnostic.notAfter ((scan doc settings).diagnostics ++ last.toList) report)
    {d : Diagnostic} (hd : d ∈ report) (hauto : d.finding.messageId = .autoImport) :
    last = some d := by
  rcases List.mem_append.mp (h.perm.mem_iff.mp hd) with hscan | hlast
  · exact absurd hauto (fix_of_mem_scan hscan).1
  · exact Option.mem_toList.mp hlast

/-- The fix and the scope graph agree on what an import binds. A name that the import of a module
already binds is never missing. So whenever names are missing, the report says so, and every
diagnostic that does has a fix, which spells exactly the missing names in the order in which the
message quotes them. -/
theorem autoImport_spells_missing (doc : Document) (settings : Settings)
    (hclauses : ∀ s ∈ doc.root.sites, s.node.kind = "import_statement" →
      s.node.childOfKind? "import_require_clause" = none ∨
        s.node.childOfKind? "import_clause" = none)
    (hgroups : ∀ s ∈ doc.root.sites, s.node.kind = "named_imports" → s.node.children ≠ []) :
    (∀ source statement, doc.valueImport? source = some statement →
      ∀ name ∈ doc.valueNames statement, name ∉ (scan doc settings).missing.names) ∧
    ∃ report, diagnose doc settings = .ok report ∧
      ((scan doc settings).missing.names ≠ [] →
        ∃ d ∈ report, d.finding.messageId = .autoImport) ∧
      ∀ d ∈ report, d.finding.messageId = .autoImport →
        ∃ edit imports, d.fix = some edit ∧ d.finding.data.lookup "imports" = some imports ∧
          Import.spelledNames edit.text = (scan doc settings).missing.names ∧
          quotedNames imports = (scan doc settings).missing.names := by
  refine ⟨fun source statement hfound name hname ↦
    not_mem_missing_of_mem_valueNames hclauses hfound hname, ?_⟩
  obtain ⟨report, hreport⟩ := exists_diagnose_eq hgroups settings
  obtain ⟨last, hfinish, hsorts⟩ := diagnose_cases hreport
  refine ⟨report, hreport, ?_, ?_⟩
  · intro hmissing
    rcases finish_cases hfinish with ⟨-, hnone⟩ | ⟨anchor, fix, -, -, rfl⟩
    · exact absurd hnone hmissing
    · exact ⟨_, hsorts.perm.mem_iff.mpr (List.mem_append_right _ (List.mem_singleton.mpr rfl)), rfl⟩
  · intro d hd hauto
    obtain rfl := eq_last_of_autoImport hsorts hd hauto
    rcases finish_cases hfinish with ⟨hnone, -⟩ | ⟨anchor, fix, hne, hfix, hlast⟩
    · cases hnone
    obtain rfl := Option.some.inj hlast
    have hall : ∀ name ∈ (scan doc settings).missing.names,
        Import.IsSpellable name.toList ∧ '\'' ∉ name.toList :=
      fun name hname ↦ isSpellable_of_mem_importable (mem_importable_of_mem_missing hname)
    have hquoted := quotedNames_proseList fun name hname ↦ (hall name hname).2
    have hcases := Document.importFix_cases hfix
    rw [unimported_missing hclauses] at hcases
    rcases hcases with ⟨-, hnone⟩ | ⟨insertion, rfl, hspells⟩
    · exact absurd hnone hne
    · have hplain : framework.toList.all Lexer.isPlain = true := by decide
      have hsource := List.all_eq_true.mp hplain
      have hspelled := Import.spelledNames_of_mem_importTexts hsource hne
        (fun name hname ↦ (hall name hname).1) hspells.text_mem
      exact ⟨_, _, rfl, rfl, hspelled, hquoted⟩

def selfClosing (start width : Nat) : Node :=
  ⟨⟨"jsx_self_closing_element", true, start, start + width, none⟩,
    [.mark "<" start (start + 1),
      .leaf "identifier" (start + 1) (start + width - 2) (some "name"),
      .mark "/>" (start + width - 2) (start + width)]⟩

/-- The text `import {For as Show} from "solid-js";<Show/><Match/><Index/><For/>`: the import binds
the one name that is an alias. -/
def aliased : Document where
  content := Utf8.encode
    "import \x7bFor as Show\x7d from \"solid-js\";<Show/><Match/><Index/><For/>".toList
  root := ⟨⟨"program", true, 0, 66, none⟩,
    [⟨⟨"import_statement", true, 0, 37, none⟩,
        [.mark "import" 0 6,
          ⟨⟨"import_clause", true, 7, 20, none⟩,
            [⟨⟨"named_imports", true, 7, 20, none⟩,
              [.mark "\x7b" 7 8,
                ⟨⟨"import_specifier", true, 8, 19, none⟩,
                  [.leaf "identifier" 8 11 (some "name"), .mark "as" 12 14,
                    .leaf "identifier" 15 19 (some "alias")]⟩,
                .mark "\x7d" 19 20]⟩]⟩,
          .mark "from" 21 25, .leaf "string" 26 36 (some "source"), .mark ";" 36 37]⟩,
      selfClosing 37 7, selfClosing 44 8, selfClosing 52 8, selfClosing 60 6]⟩

theorem autoImport_spells_aliased :
    (∀ s ∈ aliased.root.sites, s.node.kind = "import_statement" →
      s.node.childOfKind? "import_require_clause" = none ∨
        s.node.childOfKind? "import_clause" = none) ∧
    (∀ s ∈ aliased.root.sites, s.node.kind = "named_imports" → s.node.children ≠ []) ∧
    (∃ statement, aliased.valueImport? framework = some statement ∧
      "Show" ∈ aliased.valueNames statement ∧ "Show" ∉ (scan aliased {}).missing.names) ∧
    ∃ report, diagnose aliased {} = .ok report ∧
      ∃ d ∈ report, ∃ edit imports, d.fix = some edit ∧
        d.finding.data.lookup "imports" = some imports ∧
        Import.spelledNames edit.text = ["Match", "Index", "For"] ∧
        quotedNames imports = ["Match", "Index", "For"] := by
  have hclauses : ∀ s ∈ aliased.root.sites, s.node.kind = "import_statement" →
      s.node.childOfKind? "import_require_clause" = none ∨
        s.node.childOfKind? "import_clause" = none := by
    decide +kernel
  have hgroups : ∀ s ∈ aliased.root.sites, s.node.kind = "named_imports" →
      s.node.children ≠ [] := by
    decide +kernel
  have hmissing : (scan aliased {}).missing.names = ["Match", "Index", "For"] := by
    decide +kernel
  have himport : ∃ statement, aliased.valueImport? framework = some statement ∧
      "Show" ∈ aliased.valueNames statement :=
    ⟨_, rfl, by decide +kernel⟩
  obtain ⟨hbound, report, hreport, htells, hspells⟩ :=
    autoImport_spells_missing aliased {} hclauses hgroups
  rw [hmissing] at htells hspells
  obtain ⟨d, hd, hauto⟩ := htells (by decide)
  obtain ⟨statement, hfound, hname⟩ := himport
  exact ⟨hclauses, hgroups, ⟨statement, hfound, hname, hbound _ _ hfound _ hname⟩, report, hreport,
    d, hd, hspells d hd hauto⟩

end Rule

end TagScope
