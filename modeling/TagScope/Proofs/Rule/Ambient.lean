import TagScope.Proofs.Rule.Verdict

/-!
# Allowing the ambient names

A module may be searched up to its own scope or, with the ambient names allowed, up to the global
one. The wider search passes more scopes, but it looks into scopes from above starting one level
higher, and so no longer reaches the first boundary inside the first boundary below the root. This
is the only scope that it loses (`mem_visiblePlaces_allowing`). Hence a candidate that is bound
without the ambient names is bound with them, unless its name is one of that scope
(`allowGlobals_monotone`), and such names can indeed be lost (`allowGlobals_loses_nested`).
-/

set_option autoImplicit false

namespace TagScope

/-- The same settings, with the ambient names in reach of modules or not. -/
def Settings.allowing (settings : Settings) (allowed : Bool) : Settings :=
  { settings with options := { settings.options with allowGlobals := allowed } }

namespace Document

/-- The first boundary inside the first boundary below the root. -/
def secondWrapper? (doc : Document) : Option Site :=
  (Site.root doc.root).firstInside.bind Site.firstInside

/-- Whether the document is a module and binds the name in the scope that only a search up to the
module scope looks into. -/
def BindsNarrowly (doc : Document) (sourceType : SourceType) (name : String) : Prop :=
  sourceType = .module ∧ ∃ e ∈ doc.secondWrapper?.toList, doc.Binds sourceType e.place name

instance (doc : Document) (sourceType : SourceType) (name : String) :
    Decidable (doc.BindsNarrowly sourceType name) :=
  inferInstanceAs (Decidable (_ ∧ _))

/-- What is peeked into without the ambient names still is with them, but for one scope. -/
theorem mem_peekedSites_allowing {doc : Document} {sourceType : SourceType} {e : Site}
    (h : e ∈ doc.peekedSites sourceType false) :
    e ∈ doc.peekedSites sourceType true ∨
      sourceType = .module ∧ e ∈ doc.secondWrapper?.toList := by
  unfold peekedSites at h ⊢
  unfold secondWrapper?
  cases hfirst : (Site.root doc.root).firstInside with
  | none => rw [hfirst] at h; simp at h
  | some first =>
    rw [hfirst] at h
    cases sourceType with
    | script => exact Or.inl h
    | module =>
      rcases List.mem_cons.mp h with rfl | hsecond
      · exact Or.inl (List.mem_singleton_self _)
      · exact Or.inr ⟨rfl, hsecond⟩

end Document

namespace ScopeGraph

theorem mem_reachedPlaces_allowing {sourceType : SourceType} {place : Place}
    (h : place ∈ reachedPlaces sourceType false) : place ∈ reachedPlaces sourceType true := by
  cases sourceType with
  | script => exact h
  | module =>
    rw [List.mem_singleton.mp h]
    exact List.mem_cons_self

/-- What is visible without the ambient names still is with them, but for one scope. -/
theorem mem_visiblePlaces_allowing {doc : Document} {sourceType : SourceType} {s : Site}
    {place : Place} (h : place ∈ visiblePlaces doc sourceType false s) :
    place ∈ visiblePlaces doc sourceType true s ∨
      sourceType = .module ∧ ∃ e ∈ doc.secondWrapper?.toList, place = e.place := by
  rw [visiblePlaces, Bool.and_false, if_neg Bool.false_ne_true, List.nil_append, List.mem_append,
    List.mem_append] at h
  rcases h with (henclosing | hreached) | hpeeked
  · exact Or.inl (List.mem_append_left _ (List.mem_append_left _ henclosing))
  · exact Or.inl (List.mem_append_left _ (List.mem_append_right _
      (mem_reachedPlaces_allowing hreached)))
  · obtain ⟨e, he, rfl⟩ := List.mem_map.mp hpeeked
    rcases Document.mem_peekedSites_allowing he with he | ⟨hmodule, he⟩
    · exact Or.inl (List.mem_append_right _ (List.mem_append_right _ (List.mem_map_of_mem he)))
    · exact Or.inr ⟨hmodule, e, he, rfl⟩

end ScopeGraph

namespace Rule

/-- What is reported of a candidate names it. -/
theorem finding_of_report? {doc : Document} {options : Options} {c : Jsx.Candidate}
    {d : Diagnostic} (h : report? doc options c = some d) :
    d.finding = .undefinedName c.name ∨ d.finding = .undefinedDirective c.name := by
  unfold report? at h
  split at h
  · obtain rfl := Option.some.inj h
    exact Or.inr rfl
  all_goals
    split_ifs at h
    obtain rfl := Option.some.inj h
    exact Or.inl rfl

/-- A candidate that is bound without the ambient names is bound with them, unless it has its name
from the one scope that the wider search does not reach. -/
theorem isBound_allowing {doc : Document} {settings : Settings} {c : Jsx.Candidate}
    (hc : c ∈ Jsx.candidates doc)
    (h : isBound (graphOf doc (settings.allowing false)) (settings.allowing false).searchBound c =
      true) :
    isBound (graphOf doc (settings.allowing true)) (settings.allowing true).searchBound c = true ∨
      doc.BindsNarrowly settings.sourceType c.name := by
  have htracks := ScopeGraph.tracks_ofDocument doc settings.sourceType settings.globals
  have hwithin := Jsx.within_of_mem_candidates hc
  rcases (htracks.resolves_innermost_iff hwithin false c.name).mp h with
    hthis | ⟨place, hmem, hbinds⟩
  · exact Or.inl ((htracks.resolves_innermost_iff hwithin true c.name).mpr (Or.inl hthis))
  rcases ScopeGraph.mem_visiblePlaces_allowing hmem with hvisible | ⟨hmodule, e, he, rfl⟩
  · exact Or.inl ((htracks.resolves_innermost_iff hwithin true c.name).mpr
      (Or.inr ⟨place, hvisible, hbinds⟩))
  · -- The scope of a boundary is not the global one, so the name is declared there.
    refine Or.inr ⟨hmodule, e, he, hbinds.resolve_left fun hglobal ↦ ?_⟩
    exact e.scopeKind_ne.2 hglobal.1

/-- The unbound candidates with the ambient names allowed are unbound without them, in order, but
for those with names from the one scope. -/
theorem unbound_allowing_sublist (doc : Document) (settings : Settings) :
    ((unbound doc (graphOf doc (settings.allowing true))
        (settings.allowing true).searchBound).filter fun c ↦
          ¬ doc.BindsNarrowly settings.sourceType c.name).Sublist
      (unbound doc (graphOf doc (settings.allowing false))
        (settings.allowing false).searchBound) := by
  have hfilter : ((unbound doc (graphOf doc (settings.allowing true))
      (settings.allowing true).searchBound).filter fun c ↦
        ¬ doc.BindsNarrowly settings.sourceType c.name) =
      (unbound doc (graphOf doc (settings.allowing false))
        (settings.allowing false).searchBound).filter fun c ↦
          decide (¬ doc.BindsNarrowly settings.sourceType c.name) &&
            !isBound (graphOf doc (settings.allowing true))
              (settings.allowing true).searchBound c := by
    rw [unbound, unbound, List.filter_filter, List.filter_filter]
    refine List.filter_congr fun c hc ↦ ?_
    have hbound := @isBound_allowing doc settings c hc
    rw [Bool.eq_iff_iff]
    simp only [Bool.and_eq_true, Bool.not_eq_true', decide_eq_true_eq, ← Bool.not_eq_true]
    tauto
  rw [hfilter]
  exact List.filter_sublist

/-- Allowing the ambient names creates no report, but for names of the one scope that the wider
search does not reach: that of the first boundary inside the first boundary of a module. A candidate
that was bound stays bound, and what is reported or tracked as missing was so before. -/
theorem allowGlobals_monotone (doc : Document) (settings : Settings) :
    (∀ c ∈ Jsx.candidates doc,
      isBound (graphOf doc (settings.allowing false)) (settings.allowing false).searchBound c =
          true →
        isBound (graphOf doc (settings.allowing true)) (settings.allowing true).searchBound c =
            true ∨
          doc.BindsNarrowly settings.sourceType c.name) ∧
    ((unbound doc (graphOf doc (settings.allowing true))
        (settings.allowing true).searchBound).filter fun c ↦
          ¬ doc.BindsNarrowly settings.sourceType c.name).Sublist
      (unbound doc (graphOf doc (settings.allowing false))
        (settings.allowing false).searchBound) ∧
    (∀ d ∈ (scan doc (settings.allowing true)).diagnostics,
      d ∈ (scan doc (settings.allowing false)).diagnostics ∨
        ∃ name, doc.BindsNarrowly settings.sourceType name ∧
          (d.finding = .undefinedName name ∨ d.finding = .undefinedDirective name)) ∧
    (∀ name ∈ (scan doc (settings.allowing true)).missing.names,
      name ∈ (scan doc (settings.allowing false)).missing.names ∨
        doc.BindsNarrowly settings.sourceType name) := by
  have hsublist := unbound_allowing_sublist doc settings
  have hunbound : ∀ c ∈ unbound doc (graphOf doc (settings.allowing true))
      (settings.allowing true).searchBound,
      c ∈ unbound doc (graphOf doc (settings.allowing false))
          (settings.allowing false).searchBound ∨
        doc.BindsNarrowly settings.sourceType c.name := by
    intro c hc
    by_cases hnarrow : doc.BindsNarrowly settings.sourceType c.name
    · exact Or.inr hnarrow
    · exact Or.inl (hsublist.subset (List.mem_filter.mpr ⟨hc, decide_eq_true hnarrow⟩))
  refine ⟨fun c hc ↦ isBound_allowing hc, hsublist, ?_, ?_⟩
  · intro d hd
    rw [scan_eq] at hd ⊢
    obtain ⟨c, hc, hreport⟩ := List.mem_filterMap.mp hd
    rcases hunbound c hc with hbefore | hnarrow
    · exact Or.inl (List.mem_filterMap.mpr ⟨c, hbefore, hreport⟩)
    · exact Or.inr ⟨c.name, hnarrow, finding_of_report? hreport⟩
  · intro name hname
    rw [scan_eq, List.mem_eraseDups] at hname
    obtain ⟨c, hc, rfl⟩ := List.mem_map.mp hname
    obtain ⟨hmem, hawaits⟩ := List.mem_filter.mp hc
    rcases hunbound c hmem with hbefore | hnarrow
    · refine Or.inl ?_
      rw [scan_eq, List.mem_eraseDups]
      exact List.mem_map_of_mem (List.mem_filter.mpr ⟨hbefore, hawaits⟩)
    · exact Or.inr hnarrow

theorem allowGlobals_monotone_wrapped :
    ∃ c ∈ Jsx.candidates wrapped, c.name = "Box" ∧
      isBound (graphOf wrapped (Settings.allowing {} false))
        (Settings.allowing {} false).searchBound c = true ∧
      isBound (graphOf wrapped (Settings.allowing {} true))
        (Settings.allowing {} true).searchBound c = true := by
  have hfound : ∃ c ∈ Jsx.candidates wrapped, c.name = "Box" ∧
      isBound (graphOf wrapped (Settings.allowing {} false))
        (Settings.allowing {} false).searchBound c = true := by decide +kernel
  have hnarrow : ¬ wrapped.BindsNarrowly .module "Box" := by decide +kernel
  obtain ⟨c, hc, hname, hbound⟩ := hfound
  have hstays := (allowGlobals_monotone wrapped {}).1 c hc hbound
  rw [hname] at hstays
  exact ⟨c, hc, hname, hbound, hstays.resolve_right hnarrow⟩

/-- The text `function A() { if (x) { const Foo = 1; } }` and, on a second line,
`const v = <Foo />;`: the constant stands in the first block of the first function. -/
def nested : Document where
  content := Utf8.encode
    "function A() \x7b if (x) \x7b const Foo = 1; \x7d \x7d\nconst v = <Foo />;".toList
  root := ⟨⟨"program", true, 0, 61, none⟩,
    [⟨⟨"function_declaration", true, 0, 42, none⟩,
        [.mark "function" 0 8, .leaf "identifier" 9 10 (some "name"),
          ⟨⟨"formal_parameters", true, 10, 12, some "parameters"⟩,
            [.mark "(" 10 11, .mark ")" 11 12]⟩,
          ⟨⟨"statement_block", true, 13, 42, some "body"⟩,
            [.mark "\x7b" 13 14,
              ⟨⟨"if_statement", true, 15, 40, none⟩,
                [.mark "if" 15 17,
                  ⟨⟨"parenthesized_expression", true, 18, 21, some "condition"⟩,
                    [.mark "(" 18 19, .leaf "identifier" 19 20 none, .mark ")" 20 21]⟩,
                  ⟨⟨"statement_block", true, 22, 40, some "consequence"⟩,
                    [.mark "\x7b" 22 23,
                      ⟨⟨"lexical_declaration", true, 24, 38, none⟩,
                        [⟨⟨"const", false, 24, 29, some "kind"⟩, []⟩,
                          ⟨⟨"variable_declarator", true, 30, 37, none⟩,
                            [.leaf "identifier" 30 33 (some "name"), .mark "=" 34 35,
                              .leaf "number" 36 37 (some "value")]⟩,
                          .mark ";" 37 38]⟩,
                      .mark "\x7d" 39 40]⟩]⟩,
              .mark "\x7d" 41 42]⟩]⟩,
      ⟨⟨"lexical_declaration", true, 43, 61, none⟩,
        [⟨⟨"const", false, 43, 48, some "kind"⟩, []⟩,
          ⟨⟨"variable_declarator", true, 49, 60, none⟩,
            [.leaf "identifier" 49 50 (some "name"), .mark "=" 51 52,
              ⟨⟨"jsx_self_closing_element", true, 53, 60, some "value"⟩,
                [.mark "<" 53 54, .leaf "identifier" 54 57 (some "name"),
                  .mark "/>" 58 60]⟩]⟩,
          .mark ";" 60 61]⟩]⟩

/-- The wider search can lose a name: the constant of `nested` is bound at the element without the
ambient names, and not with them. -/
theorem allowGlobals_loses_nested :
    ∃ c ∈ Jsx.candidates nested, c.name = "Foo" ∧
      isBound (graphOf nested (Settings.allowing {} false))
        (Settings.allowing {} false).searchBound c = true ∧
      isBound (graphOf nested (Settings.allowing {} true))
        (Settings.allowing {} true).searchBound c = false := by
  decide +kernel

end Rule

end TagScope
