import TagScope.Proofs.Rule.Verdict
import TagScope.Proofs.Scope.Walk

/-!
# Importing the missing names settles them

Two documents are compared whose trees differ in one import statement at the top level, which in the
second binds further names as named specifiers (`AlsoImports`). Their traces differ in the names
that this statement declares, so a walk along the second gains just these names in the scope of the
root (`Walk.Gains.run`), and that scope is visible from everywhere. Hence the unbound candidates of
the second document are those of the first without the ones that are now imported, and once all
missing components are imported, nothing is left to fix (`missing_eq_nil_of_alsoImports`).
-/

set_option autoImplicit false

namespace TagScope

/-! ### Walks that gain names -/

namespace Walk

/-- A walk with the same scopes open and the same uses met as another, whose graph has gained some
names. -/
structure Gains (extra : Nat → String → Prop) (w w' : Walk) : Prop where
  stack_eq : w'.stack = w.stack
  met_eq : w'.met = w.met
  graph : ScopeGraph.Gains extra w.graph w'.graph

variable {extra : Nat → String → Prop} {w w' : Walk}

theorem Gains.current_eq (h : Gains extra w w') : w'.current = w.current := by
  rw [current, h.stack_eq, current]

theorem Gains.step (h : Gains extra w w') (event : Event) :
    Gains extra (w.step event) (w'.step event) := by
  have hcurrent := h.current_eq
  cases event with
  | opens kind =>
    refine ⟨?_, h.met_eq, ?_⟩
    · exact congrArg₂ List.cons h.graph.shape.size_eq h.stack_eq
    · rw [Walk.step, Walk.step, hcurrent]
      exact h.graph.openScope kind (some w.current) none none
  | closes => exact ⟨congrArg List.tail h.stack_eq, h.met_eq, h.graph⟩
  | declares destination name =>
    refine ⟨h.stack_eq, h.met_eq, ?_⟩
    rw [Walk.step, Walk.step, hcurrent, h.graph.shape.destination_eq]
    exact h.graph.bind _ rfl
  | uses name role =>
    refine ⟨h.stack_eq, ?_, h.graph⟩
    rw [Walk.step, Walk.step, hcurrent, h.met_eq]

/-- What a walk has gained it keeps along any trace. -/
theorem Gains.run (events : List Event) :
    ∀ {w w' : Walk}, Gains extra w w' → Gains extra (w.run events) (w'.run events) := by
  induction events with
  | nil => intro w w' h; exact h
  | cons event rest ih => intro w w' h; exact ih (h.step event)

theorem gains_declares_current (w : Walk) (name : String) :
    Gains (fun id other ↦ id = w.current ∧ id < w.graph.size ∧ other = name ∧ other ≠ "") w
      (w.step (.declares .current name)) where
  stack_eq := rfl
  met_eq := rfl
  graph := ⟨ScopeGraph.sameShape_bind _ _ _, fun id other ↦
    ScopeGraph.mem_names_bind w.graph w.current ⟨name, "", none⟩ id other⟩

/-- Declaring names in the innermost scope adds them to its names and changes nothing else. -/
theorem gains_run_declares_current (names : List String) :
    ∀ w : Walk,
      Gains (fun id name ↦ id = w.current ∧ id < w.graph.size ∧ name ∈ names ∧ name ≠ "") w
        (w.run (names.map (.declares .current))) := by
  induction names with
  | nil => intro w; exact ⟨rfl, rfl, ⟨rfl, rfl⟩, by simp [run]⟩
  | cons name rest ih =>
    intro w
    have hfirst := gains_declares_current w name
    have hrest := ih (w.step (.declares .current name))
    rw [hfirst.graph.shape.size_eq] at hrest
    refine ⟨hrest.stack_eq, hrest.met_eq, (hfirst.graph.trans hrest.graph).congr fun id other ↦ ?_⟩
    rw [hfirst.current_eq, List.mem_cons]
    tauto

end Walk

/-! ### Import statements -/

namespace Site

/-- The names that an import statement declares, in order. -/
def importedNames (doc : Document) (s : Site) : List String :=
  s.importedSites.map fun identifier ↦ doc.nameOf identifier.node

/-- The names that the parts of a kind bind in the clause of an import statement. -/
def partNames (doc : Document) (kind : String) (s : Site) : List String :=
  (s.childOfKind? "import_clause").toList.flatMap fun clause ↦
    (clause.children.filter fun part ↦ part.node.kind = kind).flatMap fun part ↦
      part.importClausePart.map fun identifier ↦ doc.nameOf identifier.node

def isImportStatement (s : Site) : Bool :=
  s.node.named && s.node.kind = "import_statement"

theorem kind_of_mem_importClausePart {part identifier : Site}
    (h : identifier ∈ part.importClausePart) :
    part.node.kind ∈ ["identifier", "namespace_import", "named_imports"] := by
  unfold importClausePart at h
  split_ifs at h with hidentifier hnamespace hnamed
  · rw [hidentifier]; decide
  · rw [hnamespace]; decide
  · rw [hnamed]; decide
  · simp at h

/-- The names of an import statement are those of its default, namespace and named parts. -/
theorem mem_importedNames_iff (doc : Document) {s : Site}
    (hrequire : s.childOfKind? "import_require_clause" = none) (name : String) :
    name ∈ s.importedNames doc ↔
      ∃ kind ∈ ["identifier", "namespace_import", "named_imports"],
        name ∈ s.partNames doc kind := by
  unfold importedNames importedSites partNames
  rw [hrequire]
  cases s.childOfKind? "import_clause" with
  | none => simp
  | some clause =>
    simp only [List.mem_map, List.mem_flatMap, Option.toList_some, List.mem_singleton,
      exists_eq_left, List.mem_filter, decide_eq_true_eq]
    constructor
    · rintro ⟨identifier, ⟨part, hpart, hidentifier⟩, rfl⟩
      exact ⟨part.node.kind, kind_of_mem_importClausePart hidentifier, part, ⟨hpart, rfl⟩,
        identifier, hidentifier, rfl⟩
    · rintro ⟨kind, -, part, ⟨hpart, -⟩, identifier, hidentifier, rfl⟩
      exact ⟨identifier, ⟨part, hpart, hidentifier⟩, rfl⟩

theorem declarations_of_isImportStatement {s : Site} (h : s.isImportStatement = true) :
    s.declarations = declareAll .current "import" s.importedSites := by
  simp only [isImportStatement, Bool.and_eq_true, decide_eq_true_eq] at h
  exact (Declares.imports h.2).declarations_eq h.1

theorem opensScope_of_isImportStatement {s : Site} (h : s.isImportStatement = true) :
    s.opensScope = false := by
  simp only [isImportStatement, Bool.and_eq_true, decide_eq_true_eq] at h
  simp [opensScope, h.1, h.2, Node.isFunction, Node.isClass, Node.isAmong, Kind.functions,
    Kind.classes, Kind.loops]

/-- The trace of an import statement: the names it declares, and what is inside. -/
theorem trace_import (doc : Document) {s : Site} (h : s.isImportStatement = true) :
    s.trace doc = (s.importedNames doc).map (.declares .current) ++ s.innerTrace doc := by
  have hused : s.used doc = [] := by
    simp only [isImportStatement, Bool.and_eq_true, decide_eq_true_eq] at h
    simp [used, Jsx.candidatesAt, Jsx.isElement, h.2]
  have hdeclared : s.declared doc = (s.importedNames doc).map (.declares .current) := by
    rw [declared, declarations_of_isImportStatement h]
    simp [importedNames, declareAll]
  rw [trace_eq, bracketed, opensScope_of_isImportStatement h, hused, hdeclared, List.append_nil]
  rfl

end Site

/-- An import statement that binds further names as named specifiers and is otherwise unchanged, or
a new one that binds just these: the other parts of its clause bind what they did, and what is
inside it opens the same scopes, declares the same names and uses the same names in JSX. -/
structure ImportGrows (doc doc' : Document) (old : Option Site) (new : Site)
    (added : List String) : Prop where
  old_isImport : ∀ s ∈ old, s.isImportStatement = true ∧
    s.childOfKind? "import_require_clause" = none
  new_isImport : new.isImportStatement = true ∧ new.childOfKind? "import_require_clause" = none
  other_parts : ∀ kind ∈ ["identifier", "namespace_import"],
    new.partNames doc' kind = old.elim [] (Site.partNames doc kind)
  specifiers : ∀ name, name ∈ new.partNames doc' "named_imports" ↔
    name ∈ old.elim [] (Site.partNames doc "named_imports") ∨ name ∈ added
  inside : new.innerTrace doc' = old.elim [] (Site.innerTrace doc)

/-- Two programs whose trees agree apart from one import statement at the top level, which in the
second binds further names. -/
structure AlsoImports (doc doc' : Document) (added : List String) : Prop where
  isProgram : doc.root.kind = "program"
  isProgram' : doc'.root.kind = "program"
  ne_empty : ∀ name ∈ added, name ≠ ""
  split : ∃ (front rest front' rest' : List Site) (old : Option Site) (new : Site),
    (Site.root doc.root).children = front ++ old.toList ++ rest ∧
    (Site.root doc'.root).children = front' ++ new :: rest' ∧
    List.Forall₂ (fun s s' ↦ s.node.agrees doc doc' s'.node = true) front front' ∧
    List.Forall₂ (fun s s' ↦ s.node.agrees doc doc' s'.node = true) rest rest' ∧
    ImportGrows doc doc' old new added

section Growth

variable {doc doc' : Document} {added : List String}

theorem ImportGrows.mem_importedNames_iff {old : Option Site} {new : Site}
    (h : ImportGrows doc doc' old new added) (name : String) :
    name ∈ new.importedNames doc' ↔
      name ∈ old.elim [] (Site.importedNames doc) ∨ name ∈ added := by
  have hold : name ∈ old.elim [] (Site.importedNames doc) ↔
      ∃ kind ∈ ["identifier", "namespace_import", "named_imports"],
        name ∈ old.elim [] (Site.partNames doc kind) := by
    cases old with
    | none => simp
    | some s => exact Site.mem_importedNames_iff doc (h.old_isImport s rfl).2 name
  rw [Site.mem_importedNames_iff doc' h.new_isImport.2, hold]
  simp only [List.mem_cons, List.not_mem_nil, or_false, exists_eq_or_imp, exists_eq_left,
    h.specifiers, h.other_parts "identifier" (by decide),
    h.other_parts "namespace_import" (by decide), or_assoc]

/-- Agreeing children of two programs have the same traces. -/
theorem flatMap_trace_eq (hroot : doc.root.kind = "program") (hroot' : doc'.root.kind = "program")
    {l l' : List Site}
    (h : List.Forall₂ (fun s s' ↦ s.node.agrees doc doc' s'.node = true) l l')
    (hl : ∀ s ∈ l, s ∈ (Site.root doc.root).children)
    (hl' : ∀ s ∈ l', s ∈ (Site.root doc'.root).children) :
    l.flatMap (Site.trace doc) = l'.flatMap (Site.trace doc') := by
  induction h with
  | nil => rfl
  | @cons s s' l l' hs _ ih =>
    have hagrees : Site.Agrees doc doc' s s' := by
      obtain ⟨index, -, habove⟩ := Site.mem_children.mp (hl s List.mem_cons_self)
      obtain ⟨index', -, habove'⟩ := Site.mem_children.mp (hl' s' List.mem_cons_self)
      refine ⟨hs, ?_, ?_⟩
      · rw [Site.parent?, habove, Site.parent?, habove']
        exact .some (Or.inr ⟨hroot, hroot'⟩)
      · rw [Site.grandparent?, habove, Site.grandparent?, habove']
        exact .none
    rw [List.flatMap_cons, List.flatMap_cons, Site.trace_eq_of_agrees s s' hagrees,
      ih (fun t ht ↦ hl t (List.mem_cons_of_mem _ ht)) fun t ht ↦ hl' t (List.mem_cons_of_mem _ ht)]

theorem trace_program {doc : Document} (h : doc.root.kind = "program") :
    doc.trace = (Site.root doc.root).children.flatMap (Site.trace doc) := by
  have hused : (Site.root doc.root).used doc = [] := by
    simp [Site.used, Jsx.candidatesAt, Jsx.isElement, Site.root, h]
  rw [Document.trace, hused, List.nil_append, Site.innerTrace]

/-- The scopes of the root do not depend on the tree. -/
theorem gains_start (doc doc' : Document) (sourceType : SourceType) (globals : List String) :
    Walk.Gains (fun _ _ ↦ False) (doc.start sourceType globals)
      (doc'.start sourceType globals) where
  stack_eq := rfl
  met_eq := rfl
  graph := by
    have hglobal : ∀ bindings, (ScopeGraph.globalOnly doc.root bindings).Mirrors
        (ScopeGraph.globalOnly doc'.root bindings) := by
      intro bindings
      refine ⟨⟨rfl, rfl⟩, fun id name ↦ ?_⟩
      by_cases hid : id = 0
      · subst hid
        exact (or_iff_left not_false).symm
      · simp [ScopeGraph.names, ScopeGraph.bindings, ScopeGraph.get?, ScopeGraph.globalOnly,
          ScopeGraph.getIn, hid]
    rw [Document.start, Document.start, ScopeGraph.roots_eq, ScopeGraph.roots_eq]
    cases sourceType with
    | module => exact (hglobal _).openScope .module (some 0) _ _
    | script => exact hglobal _

/-- Two walks that have come equally far part by the names that only one of them declares. -/
theorem gains_further_names {w w' : Walk} (h : Walk.Gains (fun _ _ ↦ False) w w')
    (hcurrent : w.current < w.graph.size) (hne : ∀ name ∈ added, name ≠ "")
    {names names' : List String}
    (hnames : ∀ name, name ∈ names' ↔ name ∈ names ∨ name ∈ added) :
    Walk.Gains (fun id name ↦ id = w.current ∧ name ∈ added)
      (w.run (names.map (.declares .current))) (w'.run (names'.map (.declares .current))) := by
  have hold := Walk.gains_run_declares_current names w
  have hnew := Walk.gains_run_declares_current names' w'
  rw [h.current_eq, h.graph.shape.size_eq] at hnew
  refine ⟨hnew.stack_eq.trans (h.stack_eq.trans hold.stack_eq.symm),
    hnew.met_eq.trans (h.met_eq.trans hold.met_eq.symm), ⟨?_, ?_⟩, fun id name ↦ ?_⟩
  · exact hnew.graph.shape.kinds.trans (h.graph.shape.kinds.trans hold.graph.shape.kinds.symm)
  · exact hnew.graph.shape.parents.trans (h.graph.shape.parents.trans hold.graph.shape.parents.symm)
  · rw [hnew.graph.mem_names_iff, h.graph.mem_names_iff, hold.graph.mem_names_iff, hnames]
    constructor
    · rintro ((hname | hfalse) | ⟨hid, hlt, hname | hname, hempty⟩)
      · exact Or.inl (Or.inl hname)
      · exact hfalse.elim
      · exact Or.inl (Or.inr ⟨hid, hlt, hname, hempty⟩)
      · exact Or.inr ⟨hid, hname⟩
    · rintro ((hname | ⟨hid, hlt, hname, hempty⟩) | ⟨hid, hname⟩)
      · exact Or.inl (Or.inl hname)
      · exact Or.inr ⟨hid, hlt, Or.inl hname, hempty⟩
      · exact Or.inr ⟨hid, hid ▸ hcurrent, Or.inr hname, hne name hname⟩

/-- A walk along the first children of the root is back in the scope of the root. -/
theorem at_rootId (doc : Document) (sourceType : SourceType) (globals : List String)
    (front : List Site) (hfront : ∀ s ∈ front, s ∈ (Site.root doc.root).children) :
    ((doc.start sourceType globals).run (front.flatMap (Site.trace doc))).current =
        ScopeGraph.rootId sourceType ∧
      ScopeGraph.rootId sourceType <
        ((doc.start sourceType globals).run (front.flatMap (Site.trace doc))).graph.size := by
  have hclimbs := doc.climbs_roots sourceType globals
  have hfollows := Walk.follows_children doc front _ _
    (fun c hc ↦ ⟨hfront c hc, Walk.followsVisit c⟩) hclimbs (doc.at_start sourceType globals)
  refine ⟨(hfollows.at_current rfl).current_eq, ?_⟩
  rw [hfollows.mirrors.shape.size_eq]
  exact (hclimbs.foldl_visitSite doc _ front _).lt_size

theorem ImportGrows.flatMap_trace_old {old : Option Site} {new : Site}
    (h : ImportGrows doc doc' old new added) :
    old.toList.flatMap (Site.trace doc) =
      (old.elim [] (Site.importedNames doc)).map (.declares .current) ++
        old.elim [] (Site.innerTrace doc) := by
  cases old with
  | none => rfl
  | some s =>
    rw [Option.toList_some, List.flatMap_singleton,
      Site.trace_import doc (h.old_isImport s rfl).1]
    rfl

/-- The walk of the second document gains the added names in the scope of the root. -/
theorem AlsoImports.gains_walk (h : AlsoImports doc doc' added) (sourceType : SourceType)
    (globals : List String) :
    Walk.Gains (fun id name ↦ id = ScopeGraph.rootId sourceType ∧ name ∈ added)
      (doc.walk sourceType globals) (doc'.walk sourceType globals) := by
  obtain ⟨front, rest, front', rest', old, new, hsplit, hsplit', hfront, hrest, hgrows⟩ := h.split
  have hmem : ∀ s ∈ front ++ old.toList ++ rest, s ∈ (Site.root doc.root).children :=
    fun s hs ↦ hsplit ▸ hs
  have hmem' : ∀ s ∈ front' ++ new :: rest', s ∈ (Site.root doc'.root).children :=
    fun s hs ↦ hsplit' ▸ hs
  have htraceFront := flatMap_trace_eq h.isProgram h.isProgram' hfront
    (fun s hs ↦ hmem s (by simp [hs])) fun s hs ↦ hmem' s (by simp [hs])
  have htraceRest := flatMap_trace_eq h.isProgram h.isProgram' hrest
    (fun s hs ↦ hmem s (by simp [hs])) fun s hs ↦ hmem' s (by simp [hs])
  obtain ⟨hcurrent, hlt⟩ := at_rootId doc sourceType globals front
    fun s hs ↦ hmem s (by simp [hs])
  have hfirst := (gains_start doc doc' sourceType globals).run (front.flatMap (Site.trace doc))
  have hgains := gains_further_names hfirst (hcurrent ▸ hlt) h.ne_empty
    hgrows.mem_importedNames_iff
  rw [hcurrent] at hgains
  rw [Document.walk, Document.walk, trace_program h.isProgram, trace_program h.isProgram', hsplit,
    hsplit', List.flatMap_append, List.flatMap_append, List.flatMap_append, List.flatMap_cons,
    hgrows.flatMap_trace_old, Site.trace_import doc' hgrows.new_isImport.1, hgrows.inside,
    ← htraceFront, ← htraceRest]
  simp only [Walk.run_append]
  exact (hgains.run _).run _

end Growth

namespace Rule

/-! ### Unbound candidates -/

/-- The unbound candidates are the uses met by the walk that do not resolve where they stand. -/
theorem map_unbound (doc : Document) (settings : Settings) :
    ((unbound doc (graphOf doc settings) settings.searchBound).map fun c ↦ (c.name, c.role)) =
      ((doc.walk settings.sourceType settings.globals).met.filter fun u ↦
        !(graphOf doc settings).resolves u.name u.scope settings.searchBound).map fun u ↦
          (u.name, u.role) := by
  rw [doc.met_walk, List.filter_map, List.map_map]
  rfl

variable {doc doc' : Document} {added : List String}

/-- A use resolves in the second document if it did in the first or its name is added. -/
theorem resolves_of_alsoImports (h : AlsoImports doc doc' added) (settings : Settings) {u : Use}
    (hu : u ∈ (doc.walk settings.sourceType settings.globals).met) :
    (graphOf doc' settings).resolves u.name u.scope settings.searchBound = true ↔
      (graphOf doc settings).resolves u.name u.scope settings.searchBound = true ∨
        u.name ∈ added := by
  have hwalk := doc.mirrors_walk settings.sourceType settings.globals
  have hwalk' := doc'.mirrors_walk settings.sourceType settings.globals
  have hgains := (h.gains_walk settings.sourceType settings.globals).graph
  have hroot : ScopeGraph.rootId settings.sourceType ∈
      (graphOf doc settings).visibleScopes u.scope settings.searchBound := by
    rw [doc.met_walk] at hu
    obtain ⟨c, hc, rfl⟩ := List.mem_map.mp hu
    exact (ScopeGraph.tracks_ofDocument doc settings.sourceType
      settings.globals).rootId_mem_visibleScopes (Jsx.within_of_mem_candidates hc) _
  have hresolves := hwalk.resolves_iff u.name u.scope settings.searchBound
  have hresolves' := hwalk'.resolves_iff u.name u.scope settings.searchBound
  simp only [and_false, exists_false, or_false] at hresolves hresolves'
  rw [graphOf, ← hresolves', hgains.resolves_iff, hresolves, hwalk.shape.visibleScopes_eq]
  refine or_congr_right ⟨?_, fun hname ↦ ⟨_, hroot, rfl, hname⟩⟩
  rintro ⟨-, -, -, hname⟩
  exact hname

/-- The unbound candidates after an import are those before without the ones that it names. -/
theorem map_unbound_of_alsoImports (h : AlsoImports doc doc' added) (settings : Settings) :
    ((unbound doc' (graphOf doc' settings) settings.searchBound).map fun c ↦ (c.name, c.role)) =
      ((unbound doc (graphOf doc settings) settings.searchBound).map fun c ↦
        (c.name, c.role)).filter fun use ↦ use.1 ∉ added := by
  rw [map_unbound, map_unbound, (h.gains_walk settings.sourceType settings.globals).met_eq,
    List.filter_map, List.filter_filter]
  congr 1
  refine List.filter_congr fun u hu ↦ ?_
  have hiff := resolves_of_alsoImports h settings hu
  rw [Bool.eq_iff_iff]
  simp only [Bool.not_eq_true', ← Bool.not_eq_true, hiff, not_or, Function.comp_apply,
    Bool.and_eq_true, decide_eq_true_eq]
  exact and_comm

/-! ### Nothing left to fix -/

/-- Only the last diagnostic of a report is about imports and has a fix. -/
theorem fix_of_report? {options : Options} {c : Jsx.Candidate} {d : Diagnostic}
    (h : report? doc options c = some d) :
    d.finding.messageId ≠ .autoImport ∧ d.fix = none := by
  unfold report? at h
  split at h
  · obtain rfl := Option.some.inj h
    exact ⟨by simp [Diagnostic.atNode, Finding.messageId], rfl⟩
  all_goals
    split_ifs at h
    obtain rfl := Option.some.inj h
    exact ⟨by simp [Diagnostic.atNode, Finding.messageId], rfl⟩

theorem diagnose_of_missing_eq_nil {settings : Settings}
    (h : (scan doc settings).missing.names = []) :
    diagnose doc settings = .ok (Stable.sort Diagnostic.notAfter
      ((unbound doc (graphOf doc settings) settings.searchBound).filterMap
        (report? doc settings.options))) := by
  have hfinish : finish doc settings (scan doc settings).missing = .ok none := by
    rw [finish, h]
    split_ifs <;> rfl
  rw [diagnose, hfinish, scan_eq]
  simp [Except.map]

/-- Once all missing components are imported, none is missing. -/
theorem missing_eq_nil_of_alsoImports (h : AlsoImports doc doc' added) (settings : Settings)
    (hmissing : ∀ name ∈ (scan doc settings).missing.names, name ∈ added) :
    (scan doc' settings).missing.names = [] := by
  rw [scan_eq]
  have hnone : (unbound doc' (graphOf doc' settings) settings.searchBound).filter
      (awaitsImport settings.options) = [] := by
    rw [List.filter_eq_nil_iff]
    intro c' hc' hawaits
    have hmem : (c'.name, c'.role) ∈ _ := List.mem_map_of_mem
      (f := fun c : Jsx.Candidate ↦ (c.name, c.role)) hc'
    rw [map_unbound_of_alsoImports h settings, List.mem_filter] at hmem
    obtain ⟨hunbound, hnotAdded⟩ := hmem
    obtain ⟨c, hc, heq⟩ := List.mem_map.mp hunbound
    obtain ⟨hname, hrole⟩ := Prod.mk.inj heq
    refine (of_decide_eq_true hnotAdded) (hmissing c'.name ?_)
    rw [scan_eq, List.mem_eraseDups]
    refine List.mem_map.mpr ⟨c, List.mem_filter.mpr ⟨hc, ?_⟩, hname⟩
    rwa [awaitsImport, hname, hrole]
  rw [hnone]
  rfl

/-- A second document that imports further names leaves exactly those candidates unbound that the
first does and whose names were not added. If it imports all that was missing, its report tells of
no missing import and has no fix, so that a second pass leaves every text as it is. -/
theorem fix_converges (h : AlsoImports doc doc' added) (settings : Settings) :
    ((unbound doc' (graphOf doc' settings) settings.searchBound).map fun c ↦ (c.name, c.role)) =
      ((unbound doc (graphOf doc settings) settings.searchBound).map fun c ↦
        (c.name, c.role)).filter (fun use ↦ use.1 ∉ added) ∧
    ((∀ name ∈ (scan doc settings).missing.names, name ∈ added) →
      ∃ report, diagnose doc' settings = .ok report ∧
        (∀ d ∈ report, d.finding.messageId ≠ .autoImport ∧ d.fix = none) ∧
        ∀ text, fixedText text report = text) := by
  refine ⟨map_unbound_of_alsoImports h settings, fun hmissing ↦ ?_⟩
  have hdiagnose := diagnose_of_missing_eq_nil (missing_eq_nil_of_alsoImports h settings hmissing)
  have hclean : ∀ d ∈ Stable.sort Diagnostic.notAfter
      ((unbound doc' (graphOf doc' settings) settings.searchBound).filterMap
        (report? doc' settings.options)), d.finding.messageId ≠ .autoImport ∧ d.fix = none := by
    intro d hd
    obtain ⟨c, -, hreport⟩ :=
      List.mem_filterMap.mp ((Diagnostic.sorts_report _).perm.mem_iff.mp hd)
    exact fix_of_report? hreport
  refine ⟨_, hdiagnose, hclean, fun text ↦ ?_⟩
  have hfixes : (Stable.sort Diagnostic.notAfter
      ((unbound doc' (graphOf doc' settings) settings.searchBound).filterMap
        (report? doc' settings.options))).filterMap Diagnostic.fix = [] := by
    rw [List.filterMap_eq_nil_iff]
    exact fun d hd ↦ (hclean d hd).2
  rw [fixedText, hfixes]
  exact String.ofList_toList

def specifier (start stop : Nat) : Node :=
  ⟨⟨"import_specifier", true, start, stop, none⟩, [.leaf "identifier" start stop (some "name")]⟩

/-- An import with some specifiers. What follows them is moved by the width of those added. -/
def importing (moved : Nat) (specifiers : List Node) : Node :=
  ⟨⟨"import_statement", true, 0, 29 + moved, none⟩,
    [⟨⟨"import_clause", true, 7, 12 + moved, none⟩,
        [⟨⟨"named_imports", true, 7, 12 + moved, none⟩, specifiers⟩]⟩,
      .leaf "string" (18 + moved) (28 + moved) (some "source")]⟩

/-- A page that imports some components and uses one inside a function. -/
def page (text : String) (moved : Nat) (specifiers : List Node) : Document where
  content := Utf8.encode text.toList
  root := ⟨⟨"program", true, 0, 50 + moved, none⟩,
    [importing moved specifiers,
      ⟨⟨"function_declaration", true, 29 + moved, 50 + moved, none⟩,
        [.leaf "identifier" (38 + moved) (39 + moved) (some "name"),
          ⟨⟨"statement_block", true, 41 + moved, 50 + moved, some "body"⟩,
            [⟨⟨"jsx_self_closing_element", true, 42 + moved, 49 + moved, none⟩,
              [.leaf "identifier" (43 + moved) (47 + moved) (some "name")]⟩]⟩]⟩]⟩

def unfixed : Document :=
  page "import \x7bFor\x7d from \"solid-js\";function f()\x7b<Show/>\x7d" 0 [specifier 8 11]

def fixed : Document :=
  page "import \x7bFor, Show\x7d from \"solid-js\";function f()\x7b<Show/>\x7d" 6
    [specifier 8 11, specifier 13 17]

theorem importGrows_fixed :
    ImportGrows unfixed fixed (some ⟨importing 0 [specifier 8 11], [(0, unfixed.root)]⟩)
      ⟨importing 6 [specifier 8 11, specifier 13 17], [(0, fixed.root)]⟩ ["Show"] where
  old_isImport := by
    rintro s ⟨⟩
    exact ⟨by decide +kernel, rfl⟩
  new_isImport := ⟨by decide +kernel, rfl⟩
  other_parts := by decide +kernel
  specifiers name := by
    have hold : Site.partNames unfixed "named_imports"
        ⟨importing 0 [specifier 8 11], [(0, unfixed.root)]⟩ = ["For"] := by decide +kernel
    have hnew : Site.partNames fixed "named_imports"
        ⟨importing 6 [specifier 8 11, specifier 13 17], [(0, fixed.root)]⟩ = ["For", "Show"] := by
      decide +kernel
    rw [hnew, Option.elim_some, hold]
    simp
  inside := by decide +kernel

theorem alsoImports_fixed : AlsoImports unfixed fixed ["Show"] where
  isProgram := rfl
  isProgram' := rfl
  ne_empty := by decide
  split := ⟨[], _, [], _, some _, _, rfl, rfl, .nil, .cons (by decide +kernel) .nil,
    importGrows_fixed⟩

theorem fix_converges_fixed : AlsoImports unfixed fixed ["Show"] ∧
    ((unbound unfixed (graphOf unfixed {}) (Settings.searchBound {})).map fun c ↦ c.name) =
      ["Show"] ∧
    ∃ report, diagnose fixed {} = .ok report ∧ ∀ text, fixedText text report = text := by
  have hmissing : ∀ name ∈ (scan unfixed {}).missing.names, name ∈ ["Show"] := by decide +kernel
  obtain ⟨-, hreport⟩ := fix_converges alsoImports_fixed {}
  obtain ⟨report, hdiagnose, -, hfixed⟩ := hreport hmissing
  exact ⟨alsoImports_fixed, by decide +kernel, report, hdiagnose, hfixed⟩

end Rule

end TagScope
