import TagScope.Proofs.Scope.Stackless

/-!
# What the scopes of a document bind

`bindings_ofDocument` is the scope analysis without its stack: every scope of the graph binds the
ambient names, if it is the global one, and then, over the named sites below the root in pre-order,
what each site contributes to the scope's place, where the destination of a declaration is computed
from the ancestors of the declaring site alone. The places named by the chains of sites are those of
scopes of the graph, one scope each, so nothing that a site contributes is lost. What goes to the
scope around a site's own are just the names of the functions and classes that are declared. Two
consequences are part of the statement: a name declared by `var` stands in no block, loop, catch
clause, switch or class, and the global scope of a module binds the ambient names only.
-/

set_option autoImplicit false

namespace TagScope

theorem ScopeKind.ownsVars_iff {kind : ScopeKind} :
    kind.ownsVars = true ↔ kind = .function ∨ kind = .module ∨ kind = .global := by
  cases kind <;> simp [ScopeKind.ownsVars]

namespace ScopeGraph

theorem kind_of_mem_ambient {globals : List String} {place : Place} {binding : Binding}
    (h : binding ∈ ambient globals place) : binding.kind = "global" := by
  unfold ambient at h
  split_ifs at h
  · obtain ⟨name, -, rfl⟩ := List.mem_map.mp h
    rfl
  · simp at h

theorem bindings_of_get? {g : ScopeGraph} {id : Nat} {scope : Scope} (h : g.get? id = some scope) :
    g.bindings id = scope.bindings := by
  rw [bindings, h]
  rfl

/-- Sites without a name of their own in the grammar contribute nothing. -/
theorem flatMap_contributions_filter_named (doc : Document) (sourceType : SourceType)
    (place : Place) (sites : List Site) :
    (sites.filter fun s ↦ s.node.named).flatMap (doc.contributions sourceType place) =
      sites.flatMap (doc.contributions sourceType place) := by
  induction sites with
  | nil => rfl
  | cons s rest ih =>
    rw [List.filter_cons, List.flatMap_cons, ← ih]
    split_ifs with hnamed
    · rfl
    · rw [Document.contributions, Site.declarations_of_not_named hnamed, List.filter_nil,
        List.map_nil, List.nil_append]

theorem mem_contributions {doc : Document} {sourceType : SourceType} {place : Place} {s : Site}
    {binding : Binding} :
    binding ∈ doc.contributions sourceType place s ↔
      ∃ d ∈ s.declarations, d.destination.place? (s.chain sourceType) = some place ∧
        binding.name ≠ "" ∧ doc.bindingOf d = binding := by
  simp only [Document.contributions, Document.bindsAt, List.mem_map, List.mem_filter,
    Bool.and_eq_true, decide_eq_true_eq]
  constructor
  · rintro ⟨d, ⟨hd, hname, hplace⟩, rfl⟩
    exact ⟨d, hd, hplace, hname, rfl⟩
  · rintro ⟨d, hd, hplace, hname, rfl⟩
    exact ⟨d, ⟨hd, hname, hplace⟩, rfl⟩

/-- A name declared by `var` is contributed to owners of variables only. -/
theorem ownsVars_of_mem_contributions {doc : Document} {sourceType : SourceType} {place : Place}
    {s : Site} {binding : Binding} (h : binding ∈ doc.contributions sourceType place s)
    (hkind : binding.kind = "var") : place.kind.ownsVars = true := by
  obtain ⟨d, hd, hplace, -, rfl⟩ := mem_contributions.mp h
  have howner := (Site.declaration_spec hd).2.varOwner_iff.mpr hkind
  rw [howner] at hplace
  exact List.find?_some (p := fun place : Place ↦ place.kind.ownsVars) hplace

theorem head?_chain_ne_global (s : Site) :
    (s.chain .module).head? ≠ some ⟨.global, []⟩ := by
  rw [Site.chain]
  cases henclosures : s.enclosures with
  | nil => simp [SourceType.rootPlaces]
  | cons e rest =>
    intro hhead
    exact e.scopeKind_ne.2 (congrArg Place.kind (Option.some.inj hhead))

/-- No declaration of a module is destined for the global scope. -/
theorem place?_ne_global {p s : Site} (hs : s ∈ p.children) {d : Declaration}
    (hd : d ∈ s.declarations) :
    d.destination.place? (s.chain .module) ≠ some ⟨.global, []⟩ := by
  cases hdestination : d.destination with
  | current => exact head?_chain_ne_global s
  | enclosing =>
    rw [Site.chain_of_mem_children hs, if_pos (Site.opensScope_of_enclosing hd hdestination)]
    exact head?_chain_ne_global p
  | varOwner =>
    rw [Destination.place?, Site.chain, List.find?_append]
    cases hfind : (s.enclosures.map Site.place).find? fun place ↦ place.kind.ownsVars with
    | none => simp [SourceType.rootPlaces, ScopeKind.ownsVars]
    | some place =>
      obtain ⟨e, -, rfl⟩ := List.mem_map.mp (List.mem_of_find?_eq_some hfind)
      intro heq
      exact e.scopeKind_ne.2 (congrArg Place.kind (Option.some.inj heq))

/-- In a module, nothing is contributed to the global scope. -/
theorem contributions_global_eq_nil (doc : Document) :
    doc.root.sites.tail.flatMap (doc.contributions .module ⟨.global, []⟩) = [] := by
  rw [List.flatMap_eq_nil_iff]
  intro s hs
  obtain ⟨p, -, hchild⟩ := Site.exists_parent_of_mem_tail hs
  rw [List.eq_nil_iff_forall_not_mem]
  intro binding hbinding
  obtain ⟨d, hd, hplace, -, -⟩ := mem_contributions.mp hbinding
  exact place?_ne_global hchild hd hplace

theorem get?_zero_ofDocument (doc : Document) (sourceType : SourceType) (globals : List String) :
    ∃ scope, (ofDocument doc sourceType globals).get? 0 = some scope ∧
      scope.place = ⟨.global, []⟩ := by
  have hzero := (tracks_ofDocument doc sourceType globals).getElem?_zero
  rw [getElem?_places] at hzero
  exact Option.map_eq_some_iff.mp hzero

/-- The scope graph of a document is what its sites contribute to the places of their chains. -/
theorem bindings_ofDocument (doc : Document) (sourceType : SourceType) (globals : List String) :
    (∀ id scope, (ofDocument doc sourceType globals).get? id = some scope →
      scope.bindings =
        (if scope.kind = .global then
          (globals.filter fun name ↦ name ≠ "").map fun name ↦ ⟨name, "global", none⟩
        else []) ++
          (doc.root.sites.tail.filter fun s ↦ s.node.named).flatMap
            (doc.contributions sourceType scope.place)) ∧
    (∀ s ∈ doc.root.sites, ∀ place ∈ s.chain sourceType,
      ∃! id, ((ofDocument doc sourceType globals).get? id).map Scope.place = some place) ∧
    (∀ s ∈ doc.root.sites, ∀ d ∈ s.declarations,
      (d.destination = .varOwner ↔ d.kind = "var") ∧
      (d.destination = .varOwner → s.node.kind ∈ ["variable_declarator", "for_in_statement"]) ∧
      (d.destination = .enclosing → s.node.kind ∈ ["function_declaration",
        "generator_function_declaration", "class_declaration", "abstract_class_declaration"])) ∧
    (∀ s ∈ doc.root.sites, s.node.named = true → ∀ name,
      ((∃ d ∈ s.declarations, d.destination = .enclosing ∧ d.identifier = name) ↔
        s.node.kind ∈ ["function_declaration", "generator_function_declaration",
          "class_declaration", "abstract_class_declaration"] ∧ s.child? "name" = some name)) ∧
    (∀ id scope, (ofDocument doc sourceType globals).get? id = some scope →
      ∀ binding ∈ scope.bindings, binding.kind = "var" →
        scope.kind = .function ∨ scope.kind = .module ∨ scope.kind = .global) ∧
    (sourceType = .module → (ofDocument doc sourceType globals).bindings 0 =
      (globals.filter fun name ↦ name ≠ "").map fun name ↦ ⟨name, "global", none⟩) := by
  have htracks := tracks_ofDocument doc sourceType globals
  refine ⟨?_, ?_, ?_, ?_, ?_, ?_⟩
  · intro id scope hget
    rw [flatMap_contributions_filter_named]
    exact htracks.bindings_eq id scope hget
  · intro s hs place hplace
    rw [Site.sites_eq_cons] at hs
    obtain ⟨top, htop⟩ := htracks.located s hs
    obtain ⟨id, hid⟩ := List.mem_iff_getElem?.mp (htop.mem_places hplace)
    simp only [← getElem?_places]
    exact ⟨id, hid, fun other hother ↦
      eq_of_getElem?_eq htracks.nodup_places hother hid⟩
  · intro s _ d hd
    obtain ⟨-, hspec⟩ := Site.declaration_spec hd
    exact ⟨hspec.varOwner_iff, hspec.varOwner, hspec.enclosing⟩
  · intro s _ hnamed name
    exact Site.exists_enclosing_iff hnamed name
  · intro id scope hget binding hbinding hkind
    rw [htracks.bindings_eq id scope hget] at hbinding
    rcases List.mem_append.mp hbinding with hambient | hcontributed
    · exact absurd (kind_of_mem_ambient hambient) (by rw [hkind]; decide)
    · obtain ⟨s, -, hs⟩ := List.mem_flatMap.mp hcontributed
      exact ScopeKind.ownsVars_iff.mp (ownsVars_of_mem_contributions hs hkind)
  · rintro rfl
    obtain ⟨scope, hget, hplace⟩ := get?_zero_ofDocument doc .module globals
    rw [bindings_of_get? hget, htracks.bindings_eq 0 scope hget, hplace,
      contributions_global_eq_nil, List.append_nil]
    rfl

end ScopeGraph

end TagScope
