import TagScope.Proofs.Rule.Ambient

/-!
# What the ambient names decide

The bindings that are visible from a site are those of the places in sight, in order
(`Tracks.visible_innermost`), and the ambient names are bound at the place of the global scope only.
So they matter just where that place is in sight. A module that does not allow them is searched up
to its own scope, and whatever they are, it is told the same (`module_ignores_globals`). Everywhere
else the global scope is in sight of every site, so a further ambient name takes away the reports
that name it, and no others (`scan_adding`).
-/

set_option autoImplicit false

namespace TagScope

/-- The same settings with further ambient names. -/
def Settings.adding (settings : Settings) (extra : List String) : Settings :=
  { settings with globals := settings.globals ++ extra }

namespace ScopeGraph

variable {doc : Document} {sourceType : SourceType} {globals : List String} {g : ScopeGraph}

/-! ### Visible bindings -/

/-- What the scope at a place binds. -/
def boundAt (doc : Document) (sourceType : SourceType) (globals : List String) (place : Place) :
    List Binding :=
  ambient globals place ++ doc.root.sites.tail.flatMap (doc.contributions sourceType place)

theorem Tracks.bindings_eq_boundAt (h : Tracks doc sourceType globals doc.root.sites.tail g)
    (id : Nat) :
    g.bindings id = (g.places[id]?).elim [] (boundAt doc sourceType globals) := by
  rw [getElem?_places]
  cases hget : g.get? id with
  | none => rw [bindings, hget]; rfl
  | some scope => rw [bindings_of_get? hget, h.bindings_eq id scope hget]; rfl

/-- The bindings visible from a site are those of the places in sight, nearest first. -/
theorem Tracks.visible_innermost (h : Tracks doc sourceType globals doc.root.sites.tail g)
    {s : Site} (hs : Site.Within (Site.root doc.root) s) (allowGlobals : Bool) :
    g.visible (g.innermost s.address) (searchBound sourceType allowGlobals) =
      (visiblePlaces doc sourceType allowGlobals s).flatMap
        (boundAt doc sourceType globals) := by
  calc g.visible (g.innermost s.address) (searchBound sourceType allowGlobals)
    _ = (g.visibleScopes (g.innermost s.address) (searchBound sourceType allowGlobals)).flatMap
          fun id ↦ (g.places[id]?).elim [] (boundAt doc sourceType globals) :=
        List.flatMap_congr fun id _ ↦ h.bindings_eq_boundAt id
    _ = ((visiblePlaces doc sourceType allowGlobals s).map some).flatMap
          fun place? ↦ place?.elim [] (boundAt doc sourceType globals) := by
        rw [← h.map_places_visibleScopes hs, List.flatMap_map]
    _ = (visiblePlaces doc sourceType allowGlobals s).flatMap (boundAt doc sourceType globals) :=
        List.flatMap_map _ _ _

/-! ### Where the global scope is in sight -/

theorem boundAt_of_kind_ne (globals globals' : List String) {place : Place}
    (h : place.kind ≠ .global) :
    boundAt doc sourceType globals place = boundAt doc sourceType globals' place := by
  rw [boundAt, boundAt, ambient, ambient, if_neg h, if_neg h]

/-- A module that does not allow the ambient names has no global scope in sight. -/
theorem kind_ne_global_of_mem_visiblePlaces {s : Site} {place : Place}
    (h : place ∈ visiblePlaces doc .module false s) : place.kind ≠ .global := by
  simp only [visiblePlaces, Bool.and_false, Bool.false_eq_true, if_false, List.nil_append,
    List.mem_append, List.mem_map] at h
  rcases h with (⟨e, -, rfl⟩ | hroot) | ⟨e, -, rfl⟩
  · exact e.scopeKind_ne.2
  · rw [List.mem_singleton.mp hroot]
    decide
  · exact e.scopeKind_ne.2

theorem global_mem_visiblePlaces {allowGlobals : Bool}
    (h : sourceType = .script ∨ allowGlobals = true) (doc : Document) (s : Site) :
    ⟨.global, []⟩ ∈ visiblePlaces doc sourceType allowGlobals s := by
  have hreached : ⟨.global, []⟩ ∈ reachedPlaces sourceType allowGlobals := by
    rcases h with rfl | rfl
    · exact List.mem_singleton_self _
    · cases sourceType <;> decide
  exact List.mem_append_left _ (List.mem_append_right _ hreached)

end ScopeGraph

namespace Rule

open ScopeGraph (tracks_ofDocument)

/-! ### Modules on their own -/

/-- Whether a candidate is bound depends on the bindings in its sight alone. -/
theorem isBound_congr {g g' : ScopeGraph} {bound bound' : ScopeKind} {c : Jsx.Candidate}
    (h : g'.visible (g'.innermost c.site.address) bound' =
      g.visible (g.innermost c.site.address) bound) :
    isBound g' bound' c = isBound g bound c := by
  rw [isBound, isBound, ScopeGraph.resolves, ScopeGraph.resolves, h]

/-- In a module that does not allow them, the ambient names change nothing: neither the bindings in
sight of a candidate nor the report, with its positions, messages and fix. -/
theorem module_ignores_globals (doc : Document) (settings : Settings) (globals : List String)
    (hmodule : settings.sourceType = .module) (hallow : settings.options.allowGlobals = false) :
    diagnose doc { settings with globals := globals } = diagnose doc settings ∧
    ∀ c ∈ Jsx.candidates doc,
      (graphOf doc { settings with globals := globals }).visible
          ((graphOf doc { settings with globals := globals }).innermost c.site.address) .module =
        (graphOf doc settings).visible ((graphOf doc settings).innermost c.site.address)
          .module := by
  have hvisible : ∀ c ∈ Jsx.candidates doc,
      (graphOf doc { settings with globals := globals }).visible
          ((graphOf doc { settings with globals := globals }).innermost c.site.address) .module =
        (graphOf doc settings).visible ((graphOf doc settings).innermost c.site.address)
          .module := by
    intro c hc
    have hwithin := Jsx.within_of_mem_candidates hc
    rw [graphOf, graphOf, hmodule]
    refine ((tracks_ofDocument doc .module globals).visible_innermost hwithin false).trans ?_
    refine Eq.trans ?_
      ((tracks_ofDocument doc .module settings.globals).visible_innermost hwithin false).symm
    exact List.flatMap_congr fun place hplace ↦ ScopeGraph.boundAt_of_kind_ne _ _
      (ScopeGraph.kind_ne_global_of_mem_visiblePlaces hplace)
  refine ⟨?_, hvisible⟩
  have hbound : settings.searchBound = .module := by
    rw [Settings.searchBound, hmodule, hallow]
    rfl
  have hunbound : unbound doc (graphOf doc { settings with globals := globals })
      settings.searchBound = unbound doc (graphOf doc settings) settings.searchBound := by
    refine List.filter_congr fun c hc ↦ ?_
    rw [hbound, isBound_congr (hvisible c hc)]
  have hscan : scan doc { settings with globals := globals } = scan doc settings :=
    congrArg (List.foldl (Scan.enter doc settings.options) .empty) hunbound
  rw [diagnose, hscan]
  rfl

/-- An ambient name of its own does not spare the module `wrapped` the report of that name. -/
theorem module_ignores_globals_wrapped :
    ({} : Settings).sourceType = .module ∧ ({} : Settings).options.allowGlobals = false ∧
    ∃ report, diagnose wrapped { globals := ["Oops"] } = .ok report ∧
      Finding.undefinedName "Oops" ∈ report.map Diagnostic.finding := by
  have hreport : ∃ report, diagnose wrapped {} = .ok report ∧
      Finding.undefinedName "Oops" ∈ report.map Diagnostic.finding := by
    refine ⟨_, rfl, ?_⟩
    decide +kernel
  refine ⟨rfl, rfl, ?_⟩
  rw [(module_ignores_globals wrapped {} ["Oops"] rfl rfl).1]
  exact hreport

/-! ### Further ambient names -/

/-- Deleting names from a list deletes them from its distinct names. -/
theorem eraseDups_filter (p : String → Bool) (names : List String) :
    (names.filter p).eraseDups = names.eraseDups.filter p := by
  match names with
  | [] => rfl
  | name :: rest =>
    -- The induction is on the length: what follows the first name is filtered before it goes on.
    have hrest := eraseDups_filter p (rest.filter fun other ↦ !other == name)
    rw [List.eraseDups_cons, List.filter_cons, List.filter_cons, ← hrest]
    by_cases hname : p name = true
    · rw [if_pos hname, if_pos hname, List.eraseDups_cons, List.filter_comm]
    · rw [if_neg hname, if_neg hname, List.filter_filter]
      refine congrArg List.eraseDups (List.filter_congr fun other _ ↦ ?_)
      by_cases hother : other = name
      · simp [hother, hname]
      · simp [hother]
termination_by names.length
decreasing_by exact Nat.lt_succ_of_le (List.length_filter_le _ _)

section Adding

variable {doc : Document} {settings : Settings} {extra : List String}
  (hreach : settings.sourceType = .script ∨ settings.options.allowGlobals = true)
  (hextra : ∀ name ∈ extra, name ≠ "")

include hreach hextra

/-- Where the ambient names are in reach, a candidate is bound with further ones exactly when it was
bound before or has the name of one of them. -/
theorem isBound_adding {c : Jsx.Candidate} (hc : c ∈ Jsx.candidates doc) :
    isBound (graphOf doc (settings.adding extra)) (settings.adding extra).searchBound c = true ↔
      isBound (graphOf doc settings) settings.searchBound c = true ∨ c.name ∈ extra := by
  have hwithin := Jsx.within_of_mem_candidates hc
  have hsight := ScopeGraph.global_mem_visiblePlaces hreach doc c.site
  have hbefore := (tracks_ofDocument doc settings.sourceType
    settings.globals).resolves_innermost_iff hwithin settings.options.allowGlobals c.name
  have hafter := (tracks_ofDocument doc settings.sourceType
    (settings.globals ++ extra)).resolves_innermost_iff hwithin settings.options.allowGlobals c.name
  refine hafter.trans (Iff.trans ?_ (or_congr_left hbefore.symm))
  constructor
  · rintro (hthis | ⟨place, hplace, ⟨hkind, hmem, hname⟩ | hbinds⟩)
    · exact Or.inl (Or.inl hthis)
    · rcases List.mem_append.mp hmem with hmem | hmem
      · exact Or.inl (Or.inr ⟨place, hplace, Or.inl ⟨hkind, hmem, hname⟩⟩)
      · exact Or.inr hmem
    · exact Or.inl (Or.inr ⟨place, hplace, Or.inr hbinds⟩)
  · rintro ((hthis | ⟨place, hplace, ⟨hkind, hmem, hname⟩ | hbinds⟩) | hmem)
    · exact Or.inl hthis
    · exact Or.inr ⟨place, hplace, Or.inl ⟨hkind, List.mem_append_left _ hmem, hname⟩⟩
    · exact Or.inr ⟨place, hplace, Or.inr hbinds⟩
    · exact Or.inr ⟨_, hsight, Or.inl ⟨rfl, List.mem_append_right _ hmem, hextra _ hmem⟩⟩

theorem unbound_adding :
    unbound doc (graphOf doc (settings.adding extra)) (settings.adding extra).searchBound =
      (unbound doc (graphOf doc settings) settings.searchBound).filter fun c ↦
        c.name ∉ extra := by
  rw [unbound, unbound, List.filter_filter]
  refine List.filter_congr fun c hc ↦ ?_
  have hbound := isBound_adding hreach hextra hc
  rw [Bool.eq_iff_iff]
  simp only [Bool.and_eq_true, Bool.not_eq_true', decide_eq_true_eq, ← Bool.not_eq_true, hbound]
  tauto

end Adding

/-- What is reported of a candidate names it, and nothing else. -/
theorem identifier_of_report? {doc : Document} {options : Options} {c : Jsx.Candidate}
    {d : Diagnostic} (h : report? doc options c = some d) (name : String) :
    ("identifier", name) ∈ d.finding.data ↔ name = c.name := by
  rcases finding_of_report? h with hfinding | hfinding <;> simp [hfinding, Finding.data]

/-- Where the ambient names are in reach, further ones take away the reports that name them, and the
missing components that have their names. What else is reported or missing stays, in order. -/
theorem scan_adding (doc : Document) (settings : Settings) (extra : List String)
    (hreach : settings.sourceType = .script ∨ settings.options.allowGlobals = true)
    (hextra : ∀ name ∈ extra, name ≠ "") :
    (scan doc (settings.adding extra)).diagnostics =
        (scan doc settings).diagnostics.filter (fun d ↦
          ¬ ∃ name ∈ extra, ("identifier", name) ∈ d.finding.data) ∧
      (scan doc (settings.adding extra)).missing.names =
        (scan doc settings).missing.names.filter fun name ↦ name ∉ extra := by
  rw [scan_eq, scan_eq, unbound_adding hreach hextra]
  constructor
  · dsimp only
    rw [List.filterMap_filter, List.filter_filterMap]
    refine List.filterMap_congr fun c _ ↦ ?_
    change (if decide (c.name ∉ extra) = true then report? doc settings.options c else none) =
      (report? doc settings.options c).filter _
    cases hreport : report? doc settings.options c with
    | none => simp
    | some d =>
      have hnames : (∃ name ∈ extra, ("identifier", name) ∈ d.finding.data) ↔ c.name ∈ extra := by
        simp [identifier_of_report? hreport]
      by_cases hmem : c.name ∈ extra <;> simp [Option.filter, hnames, hmem]
  · dsimp only
    rw [← eraseDups_filter, List.filter_map, List.filter_comm]
    rfl

/-- Declared as ambient in a script, the two names that `wrapped` lacks are reported no more. -/
theorem scan_adding_wrapped :
    ({ sourceType := .script } : Settings).sourceType = .script ∧
    (∀ name ∈ ["Oops", "Show"], name ≠ "") ∧
    (scan wrapped { sourceType := .script }).missing.names = ["Show"] ∧
    (scan wrapped { sourceType := .script }).diagnostics.map Diagnostic.finding =
      [.undefinedName "Oops"] ∧
    (scan wrapped (Settings.adding { sourceType := .script } ["Oops", "Show"])).diagnostics = [] ∧
    (scan wrapped
      (Settings.adding { sourceType := .script } ["Oops", "Show"])).missing.names = [] := by
  have hextra : ∀ name ∈ ["Oops", "Show"], name ≠ "" := by decide
  have hmissing : (scan wrapped { sourceType := .script }).missing.names = ["Show"] := by
    decide +kernel
  have hreported : (scan wrapped { sourceType := .script }).diagnostics.map Diagnostic.finding =
      [.undefinedName "Oops"] := by
    decide +kernel
  obtain ⟨hdiagnostics, hnames⟩ :=
    scan_adding wrapped { sourceType := .script } ["Oops", "Show"] (Or.inl rfl) hextra
  refine ⟨rfl, hextra, hmissing, hreported, ?_, ?_⟩
  · rw [hdiagnostics]
    decide +kernel
  · rw [hnames, hmissing]
    decide

end Rule

end TagScope
