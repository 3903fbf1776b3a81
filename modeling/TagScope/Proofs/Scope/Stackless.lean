import TagScope.Proofs.Scope.Graph
import TagScope.Proofs.Scope.Places

/-!
# The scope analysis without its stack

The analysis carries the innermost scope down the tree while it grows the graph. This module shows
that what it builds can be read off the tree site by site. The invariant is `Tracks`: after the
sites of a list have been visited, the scopes of the graph stand at the places of the root and of
the boundaries of the list, in that order; every visited site has a scope from which the graph
climbs through the places of the site's chain; and every scope binds the ambient names, if it is
the global one, and then what the sites of the list contribute to its place. Entering a site and
declaring its names keeps it (`Tracks.step`), so visiting a subtree does (`visitTracks`), and the
graph of a document tracks all sites below the root (`tracks_ofDocument`).
-/

set_option autoImplicit false

namespace TagScope

namespace ScopeGraph

/-! ### The places of a graph -/

/-- The places of the scopes, in the order in which they were opened. -/
def places (g : ScopeGraph) : List Place :=
  (g.newestFirst.map Scope.place).reverse

theorem length_places (g : ScopeGraph) : g.places.length = g.size := by
  simp only [places, List.length_reverse, List.length_map, size]

theorem getElem?_reverse_map_place (l : List Scope) (id : Nat) :
    (l.map Scope.place).reverse[id]? = (getIn l id).map Scope.place := by
  induction l with
  | nil => rfl
  | cons scope older ih =>
    rw [List.map_cons, List.reverse_cons, getIn]
    by_cases hid : id = older.length
    · rw [if_pos hid, hid, List.getElem?_append_right (by simp)]
      simp
    · rw [if_neg hid]
      by_cases hlt : id < older.length
      · rw [List.getElem?_append_left (by simpa using hlt), ih]
      · rw [List.getElem?_eq_none (by simp; omega), getIn_eq_none (Nat.le_of_not_lt hlt)]
        rfl

theorem getElem?_places (g : ScopeGraph) (id : Nat) :
    g.places[id]? = (g.get? id).map Scope.place :=
  getElem?_reverse_map_place g.newestFirst id

theorem places_openScope (g : ScopeGraph) (kind : ScopeKind) (parent : Option Nat)
    (block : Option Site) :
    (g.openScope kind parent block).places = g.places ++ [⟨kind, block.elim [] Site.address⟩] := by
  simp only [places, openScope, List.map_cons, List.reverse_cons, Scope.place]

@[simp] theorem places_bind (g : ScopeGraph) (id : Nat) (binding : Binding) :
    (g.bind id binding).places = g.places := by
  unfold bind
  split_ifs
  · rfl
  · have hplaces : (bindIn binding g.newestFirst id).map Scope.place =
        g.newestFirst.map Scope.place := map_bindIn (fun _ _ ↦ rfl) binding g.newestFirst id
    rw [places, hplaces, places]

theorem kind?_eq (g : ScopeGraph) (id : Nat) : g.kind? id = g.places[id]?.map Place.kind := by
  rw [getElem?_places, kind?, Option.map_map]
  rfl

/-- Where places are distinct, a scope is determined by its place. -/
theorem eq_of_getElem?_eq {places : List Place} (hnodup : places.Nodup) {id other : Nat}
    {place : Place} (hid : places[id]? = some place) (hother : places[other]? = some place) :
    id = other :=
  (List.getElem?_inj (List.getElem?_eq_some_iff.mp hid).1 hnodup).mp (hid.trans hother.symm)

/-! ### Climbing through the places of a chain -/

/-- The scopes from a scope up stand at the places of a chain. -/
structure Climbs (g : ScopeGraph) (id : Nat) (chain : List Place) : Prop where
  lt_size : id < g.size
  map_places : (g.lineage id).map (fun other ↦ g.places[other]?) = chain.map some

theorem Climbs.mem_places {g : ScopeGraph} {id : Nat} {chain : List Place}
    (h : g.Climbs id chain) {place : Place} (hplace : place ∈ chain) : place ∈ g.places := by
  have hmem : some place ∈ (g.lineage id).map fun other ↦ g.places[other]? := by
    rw [h.map_places]
    exact List.mem_map_of_mem hplace
  obtain ⟨other, -, hother⟩ := List.mem_map.mp hmem
  exact List.mem_of_getElem? hother

theorem Climbs.bind {g : ScopeGraph} {id : Nat} {chain : List Place} (h : g.Climbs id chain)
    (target : Nat) (binding : Binding) : (g.bind target binding).Climbs id chain where
  lt_size := by rw [size_bind]; exact h.lt_size
  map_places := by rw [lineage_bind, places_bind]; exact h.map_places

theorem Climbs.openScope {g : ScopeGraph} {id : Nat} {chain : List Place} (h : g.Climbs id chain)
    (kind : ScopeKind) (parent : Option Nat) (block : Option Site) :
    (g.openScope kind parent block).Climbs id chain where
  lt_size := Nat.lt_succ_of_lt h.lt_size
  map_places := by
    rw [lineage_openScope_of_lt h.lt_size, ← h.map_places, places_openScope]
    refine List.map_congr_left fun other hother ↦ ?_
    have hmem : g.places[other]? ∈ chain.map some :=
      h.map_places ▸ List.mem_map_of_mem (f := fun other ↦ g.places[other]?) hother
    obtain ⟨place, -, hplace⟩ := List.mem_map.mp hmem
    have hlt : other < g.places.length := (List.getElem?_eq_some_iff.mp hplace.symm).1
    rw [List.getElem?_append_left hlt]

/-- A scope opened under another one climbs through its own place and then as the other does. -/
theorem Climbs.openScope_self {g : ScopeGraph} {current : Nat} {chain : List Place}
    (h : g.Climbs current chain) (kind : ScopeKind) (block : Option Site) :
    (g.openScope kind (some current) block).Climbs g.size
      (⟨kind, block.elim [] Site.address⟩ :: chain) where
  lt_size := Nat.lt_succ_self g.size
  map_places := by
    have hparent := (h.openScope kind (some current) block).map_places
    rw [lineage_openScope_of_lt h.lt_size] at hparent
    rw [lineage_openScope_self, List.map_cons, List.map_cons]
    congr 1
    rw [places_openScope, ← length_places, List.getElem?_concat_length]

theorem head?_lineageIn {l : List Scope} : ∀ {id first : Nat},
    first ∈ (lineageIn l id).head? → first = id := by
  induction l with
  | nil => intro id first h; simp [lineageIn] at h
  | cons scope older ih =>
    intro id first h
    rw [lineageIn] at h
    split_ifs at h
    · exact (Option.some.inj h).symm
    · exact ih h

/-- The number of the scope at the head of a chain. -/
theorem Climbs.getElem?_head {g : ScopeGraph} {id : Nat} {chain : List Place}
    (h : g.Climbs id chain) {place : Place} (hplace : chain.head? = some place) :
    g.places[id]? = some place := by
  have hhead := congrArg List.head? h.map_places
  rw [List.head?_map, List.head?_map, hplace] at hhead
  obtain ⟨first, hfirst, heq⟩ := Option.map_eq_some_iff.mp hhead
  rwa [head?_lineageIn hfirst] at heq

/-! ### Declaring -/

/-- The scope that a declared name goes to stands at the place of its destination. -/
theorem Climbs.getElem?_destination {g : ScopeGraph} (hg : g.Ranked) {current : Nat}
    {chain : List Place} (h : g.Climbs current chain) {destination : Destination} {place : Place}
    (hplace : destination.place? chain = some place) :
    g.places[g.destination current destination]? = some place := by
  cases destination with
  | current => exact h.getElem?_head hplace
  | enclosing =>
    obtain ⟨scope, hscope⟩ := exists_get?_of_lt h.lt_size
    have htail := congrArg (fun l ↦ l.tail.head?) h.map_places
    rw [hg.lineage_eq hscope] at htail
    simp only [List.map_cons, List.tail_cons, List.head?_map, ← List.map_tail] at htail
    rw [show chain.tail.head? = some place from hplace] at htail
    obtain ⟨first, hfirst, heq⟩ := Option.map_eq_some_iff.mp htail
    have hparent : scope.parent = some first := by
      cases hscope' : scope.parent with
      | none => rw [hscope'] at hfirst; simp at hfirst
      | some parent =>
        rw [hscope'] at hfirst
        rw [head?_lineageIn hfirst]
    rwa [destination, parent?, hscope, Option.bind_some, hparent, Option.getD_some]
  | varOwner =>
    have hfind := congrArg (List.find? fun found ↦ (found.map Place.kind).any ScopeKind.ownsVars)
      h.map_places
    rw [List.find?_map, List.find?_map] at hfind
    have howner : chain.find? ((fun found : Option Place ↦
        (found.map Place.kind).any ScopeKind.ownsVars) ∘ some) = some place := hplace
    rw [howner] at hfind
    obtain ⟨owner, hfound, heq⟩ := Option.map_eq_some_iff.mp hfind
    have hlineage : (g.lineage current).find?
        (fun id ↦ (g.kind? id).any ScopeKind.ownsVars) = some owner := by
      rw [← hfound]
      congr 1
      funext id
      rw [Function.comp_apply, kind?_eq]
    rw [destination, hlineage, Option.getD_some]
    exact heq

theorem declare_eq_bind (doc : Document) (current : Nat) (g : ScopeGraph) (d : Declaration) :
    declare doc current g d = g.bind (g.destination current d.destination) (doc.bindingOf d) := rfl

/-- A declaration is added to the scope at the place of its destination, if it has a name. -/
theorem get?_declare (doc : Document) {g : ScopeGraph} (hg : g.Ranked)
    (hnodup : g.places.Nodup) {current : Nat} {chain : List Place} (h : g.Climbs current chain)
    {d : Declaration} {place : Place} (hplace : d.destination.place? chain = some place)
    (id : Nat) :
    (declare doc current g d).get? id = (g.get? id).map fun scope ↦
      { scope with
        bindings := scope.bindings ++
          ([d].filter (doc.bindsAt chain scope.place)).map doc.bindingOf } := by
  have htarget := h.getElem?_destination hg hplace
  rw [declare_eq_bind]
  by_cases hname : (doc.bindingOf d).name = ""
  · rw [bind_of_name_eq_empty _ _ hname]
    cases hget : g.get? id with
    | none => rfl
    | some scope => simp [Document.bindsAt, hname]
  · rw [get?_bind _ _ _ hname]
    cases hget : g.get? id with
    | none => rfl
    | some scope =>
      have hid : g.places[id]? = some scope.place := by rw [getElem?_places, hget]; rfl
      -- Places are distinct, so the scope is the target exactly when it stands at its place.
      have hiff : id = g.destination current d.destination ↔ place = scope.place := by
        constructor
        · rintro rfl
          exact Option.some.inj (htarget.symm.trans hid)
        · rintro rfl
          exact eq_of_getElem?_eq hnodup hid htarget
      simp only [Option.map_some, hiff]
      by_cases heq : place = scope.place
      · simp [Document.bindsAt, hname, hplace, heq]
      · simp [Document.bindsAt, hname, hplace, heq]

theorem ranked_declare {g : ScopeGraph} (hg : g.Ranked) (doc : Document) (current : Nat)
    (d : Declaration) : (declare doc current g d).Ranked :=
  hg.bind _ _

theorem places_declare (doc : Document) (current : Nat) (g : ScopeGraph) (d : Declaration) :
    (declare doc current g d).places = g.places :=
  places_bind g _ _

theorem ranked_foldl_declare (doc : Document) (current : Nat) (ds : List Declaration) :
    ∀ g : ScopeGraph, g.Ranked → (ds.foldl (declare doc current) g).Ranked := by
  induction ds with
  | nil => intro g hg; exact hg
  | cons d rest ih => intro g hg; exact ih _ (ranked_declare hg doc current d)

theorem places_foldl_declare (doc : Document) (current : Nat) (ds : List Declaration) :
    ∀ g : ScopeGraph, (ds.foldl (declare doc current) g).places = g.places := by
  induction ds with
  | nil => intro g; rfl
  | cons d rest ih => intro g; rw [List.foldl_cons, ih, places_declare]

theorem Climbs.foldl_declare (doc : Document) (current : Nat) (ds : List Declaration) {id : Nat}
    {chain : List Place} :
    ∀ g : ScopeGraph, g.Climbs id chain → (ds.foldl (declare doc current) g).Climbs id chain := by
  induction ds with
  | nil => intro g h; exact h
  | cons d rest ih => intro g h; exact ih _ (h.bind _ _)

/-- Declaring a list of names adds to each scope those that are destined for its place. -/
theorem get?_foldl_declare (doc : Document) {current : Nat} {chain : List Place}
    (ds : List Declaration) :
    ∀ g : ScopeGraph, g.Ranked → g.places.Nodup → g.Climbs current chain →
      (∀ d ∈ ds, ∃ place, d.destination.place? chain = some place) → ∀ id,
        (ds.foldl (declare doc current) g).get? id = (g.get? id).map fun scope ↦
          { scope with
            bindings := scope.bindings ++
              (ds.filter (doc.bindsAt chain scope.place)).map doc.bindingOf } := by
  induction ds with
  | nil => intro g _ _ _ _ id; simp
  | cons d rest ih =>
    intro g hg hnodup h hplaces id
    obtain ⟨place, hplace⟩ := hplaces d List.mem_cons_self
    have hrest := ih (declare doc current g d) (ranked_declare hg doc current d)
      (by rwa [places_declare]) (h.bind _ _)
      (fun other hother ↦ hplaces other (List.mem_cons_of_mem _ hother)) id
    rw [List.foldl_cons, hrest, get?_declare doc hg hnodup h hplace, Option.map_map]
    congr 1
    funext scope
    rw [Function.comp_apply, ← List.singleton_append (l := rest), List.filter_append,
      List.map_append, ← List.append_assoc]
    rfl

/-! ### Visiting, site by site -/

def visitSite (doc : Document) (current : Nat) (g : ScopeGraph) (s : Site) : ScopeGraph :=
  visit doc current s.above g s.node

theorem visitAll_eq_foldl (doc : Document) (current : Nat) (parent : Node) (above : Ascent)
    (cs : List Node) :
    ∀ (index : Nat) (g : ScopeGraph), visitAll doc current parent above index g cs =
      (Site.childSites parent above index cs).foldl (visitSite doc current) g := by
  induction cs with
  | nil => intro index g; rw [visitAll]; rfl
  | cons c rest ih =>
    intro index g
    rw [visitAll, ih, Site.childSites_cons, List.foldl_cons]
    rfl

theorem visitAll_children (doc : Document) (current : Nat) (g : ScopeGraph) (s : Site) :
    visitAll doc current s.node s.above 0 g s.node.children =
      s.children.foldl (visitSite doc current) g := by
  rw [visitAll_eq_foldl, Site.children_eq]

/-- Visiting a site enters it, declares its names and visits its children in order. -/
theorem visitSite_eq (doc : Document) (current : Nat) (g : ScopeGraph) (s : Site) :
    visitSite doc current g s =
      s.children.foldl (visitSite doc (g.enter current s).2)
        (s.declarations.foldl (declare doc (g.enter current s).2) (g.enter current s).1) := by
  rw [← visitAll_children]
  obtain ⟨⟨label, cs⟩, above⟩ := s
  rw [visitSite, visit]

/-- A scope keeps its place and what lies above it while sites are visited. -/
theorem Climbs.enter {g : ScopeGraph} {id : Nat} {chain : List Place} (h : g.Climbs id chain)
    (current : Nat) (s : Site) : (g.enter current s).1.Climbs id chain := by
  unfold ScopeGraph.enter
  split_ifs
  · exact h.openScope _ _ _
  · exact h

theorem Climbs.visitSite (doc : Document) (s : Site) {id : Nat} {chain : List Place} :
    ∀ (current : Nat) (g : ScopeGraph), g.Climbs id chain →
      (ScopeGraph.visitSite doc current g s).Climbs id chain := by
  induction s using Site.inductionOn with
  | step s ih =>
    intro current g h
    have hfold : ∀ (target : Nat) (cs : List Site), (∀ c ∈ cs, c ∈ s.children) →
        ∀ g : ScopeGraph, g.Climbs id chain →
          (cs.foldl (ScopeGraph.visitSite doc target) g).Climbs id chain := by
      intro target cs
      induction cs with
      | nil => intro _ g h; exact h
      | cons c rest ihrest =>
        intro hcs g h
        exact ihrest (fun d hd ↦ hcs d (List.mem_cons_of_mem _ hd)) _
          (ih c (hcs c List.mem_cons_self) target g h)
    rw [visitSite_eq]
    exact hfold _ s.children (fun _ hc ↦ hc) _
      (Climbs.foldl_declare doc _ s.declarations _ (h.enter current s))

theorem Climbs.foldl_visitSite (doc : Document) (current : Nat) (cs : List Site) {id : Nat}
    {chain : List Place} :
    ∀ g : ScopeGraph, g.Climbs id chain →
      (cs.foldl (ScopeGraph.visitSite doc current) g).Climbs id chain := by
  induction cs with
  | nil => intro g h; exact h
  | cons c rest ih => intro g h; exact ih _ (h.visitSite doc c current g)

/-- The innermost scope after a site is entered climbs through the site's chain. -/
theorem Climbs.enter_self {g : ScopeGraph} {sourceType : SourceType} {p s : Site}
    (hs : s ∈ p.children) {current : Nat} (h : g.Climbs current (p.chain sourceType)) :
    (g.enter current s).1.Climbs (g.enter current s).2 (s.chain sourceType) := by
  unfold ScopeGraph.enter
  rw [Site.chain_of_mem_children hs]
  split_ifs
  · exact h.openScope_self s.scopeKind (some s)
  · exact h

/-! ### The invariant -/

/-- The configured names that the scope at a place binds. -/
def ambient (globals : List String) (place : Place) : List Binding :=
  if place.kind = .global then
    (globals.filter fun name ↦ name ≠ "").map fun name ↦ ⟨name, "global", none⟩
  else []

/-- After the sites of a list have been visited: scopes stand at the places of the root and of the
boundaries of the list, each opened by one of these, every visited site has a scope from which the
graph climbs through the site's chain, and every scope binds the ambient names of its place and what
the sites of the list contribute to it. -/
structure Tracks (doc : Document) (sourceType : SourceType) (globals : List String)
    (visited : List Site) (g : ScopeGraph) : Prop where
  ranked : g.Ranked
  places_eq : g.places =
    sourceType.rootPlaces.reverse ++ (visited.filter Site.isBoundary).map Site.place
  opened : ∀ id scope, g.get? id = some scope →
    ∃ s ∈ Site.root doc.root :: visited, scope.block = some s
  located : ∀ s ∈ Site.root doc.root :: visited, ∃ id, g.Climbs id (s.chain sourceType)
  bindings_eq : ∀ id scope, g.get? id = some scope → scope.bindings =
    ambient globals scope.place ++ visited.flatMap (doc.contributions sourceType scope.place)

variable {doc : Document} {sourceType : SourceType} {globals : List String}

/-- Distinct addresses give distinct places. -/
theorem nodup_boundaryPlaces {visited : List Site}
    (hnodup : ((Site.root doc.root :: visited).map Site.address).Nodup) :
    (sourceType.rootPlaces.reverse ++
      (visited.filter Site.isBoundary).map Site.place).Nodup := by
  rw [List.map_cons, List.nodup_cons] at hnodup
  rw [List.nodup_append]
  refine ⟨by cases sourceType <;> decide, ?_, ?_⟩
  · have haddresses : ((visited.filter Site.isBoundary).map Site.address).Nodup :=
      hnodup.2.sublist (List.filter_sublist.map _)
    refine List.Nodup.of_map Place.address ?_
    rw [List.map_map]
    exact haddresses
  · intro place hroot other hother heq
    obtain ⟨s, hs, rfl⟩ := List.mem_map.mp hother
    have haddress : s.address = [] := by
      have hempty := SourceType.address_of_mem_rootPlaces (List.mem_reverse.mp hroot)
      rwa [heq] at hempty
    exact hnodup.1 (List.mem_map.mpr ⟨s, (List.mem_filter.mp hs).1, haddress⟩)

theorem mem_chain_of_place? {chain : List Place} {destination : Destination} {place : Place}
    (h : destination.place? chain = some place) : place ∈ chain := by
  cases destination with
  | current => exact List.mem_of_head? h
  | enclosing => exact List.mem_of_mem_tail (List.mem_of_head? h)
  | varOwner => exact List.mem_of_find?_eq_some h

/-- Sites that were visited contribute nothing to a place where no scope has been opened. -/
theorem Tracks.contributions_eq_nil {visited : List Site} {g : ScopeGraph}
    (h : Tracks doc sourceType globals visited g) {place : Place} (hplace : place ∉ g.places) :
    visited.flatMap (doc.contributions sourceType place) = [] := by
  rw [List.flatMap_eq_nil_iff]
  intro s hs
  obtain ⟨id, hid⟩ := h.located s (List.mem_cons_of_mem _ hs)
  rw [Document.contributions, List.map_eq_nil_iff, List.filter_eq_nil_iff]
  intro d _ hbinds
  simp only [Document.bindsAt, Bool.and_eq_true, decide_eq_true_eq] at hbinds
  exact hplace (hid.mem_places (mem_chain_of_place? hbinds.2))

theorem Tracks.place_notMem {visited : List Site} {g : ScopeGraph}
    (h : Tracks doc sourceType globals visited g) {s : Site}
    (hnodup : ((Site.root doc.root :: (visited ++ [s])).map Site.address).Nodup) :
    s.place ∉ g.places := by
  rw [← List.cons_append, List.map_append, List.nodup_append] at hnodup
  have hfresh : ∀ t ∈ Site.root doc.root :: visited, t.address ≠ s.address := fun t ht ↦
    hnodup.2.2 _ (List.mem_map_of_mem ht) _ (List.mem_map_of_mem (List.mem_singleton_self s))
  rw [h.places_eq, List.mem_append, not_or]
  refine ⟨fun hmem ↦ ?_, fun hmem ↦ ?_⟩
  · exact hfresh _ List.mem_cons_self
      (SourceType.address_of_mem_rootPlaces (List.mem_reverse.mp hmem)).symm
  · obtain ⟨t, ht, heq⟩ := List.mem_map.mp hmem
    exact hfresh t (List.mem_cons_of_mem _ (List.mem_filter.mp ht).1) (congrArg Place.address heq)

/-- Entering a site opens a scope at its place, if it is a boundary. No bindings change. -/
theorem Tracks.enter {visited : List Site} {g : ScopeGraph}
    (h : Tracks doc sourceType globals visited g) {p s : Site} (hs : s ∈ p.children)
    {current : Nat} (hcurrent : g.Climbs current (p.chain sourceType))
    (hfresh : s.place ∉ g.places) :
    (g.enter current s).1.Ranked ∧
      (g.enter current s).1.places = sourceType.rootPlaces.reverse ++
        ((visited ++ [s]).filter Site.isBoundary).map Site.place ∧
      ∀ id scope, (g.enter current s).1.get? id = some scope →
        (∃ t ∈ Site.root doc.root :: (visited ++ [s]), scope.block = some t) ∧
        scope.bindings = ambient globals scope.place ++
          visited.flatMap (doc.contributions sourceType scope.place) := by
  have hold : ∀ id scope, g.get? id = some scope →
      (∃ t ∈ Site.root doc.root :: (visited ++ [s]), scope.block = some t) ∧
      scope.bindings = ambient globals scope.place ++
        visited.flatMap (doc.contributions sourceType scope.place) := by
    intro id scope hget
    obtain ⟨t, ht, hblock⟩ := h.opened id scope hget
    exact ⟨⟨t, List.mem_append_left [s] ht, hblock⟩, h.bindings_eq id scope hget⟩
  rw [List.filter_append, List.map_append, ← List.append_assoc, ← h.places_eq,
    List.filter_singleton, Site.isBoundary_of_mem_children hs, Bool.cond_eq_ite]
  unfold ScopeGraph.enter
  by_cases hopens : s.opensScope = true
  · rw [if_pos hopens, if_pos hopens]
    refine ⟨h.ranked.openScope _ ?_ _, places_openScope _ _ _ _, ?_⟩
    · intro id hid
      rw [← Option.some.inj hid]
      exact hcurrent.lt_size
    · intro id scope hget
      by_cases hid : id < g.size
      · rw [get?_openScope_of_lt hid] at hget
        exact hold id scope hget
      · -- The new scope binds nothing yet, and nothing visited so far is destined for its place.
        have hlt := lt_size_of_get? hget
        rw [size_openScope] at hlt
        obtain rfl : id = g.size := by omega
        rw [get?_openScope_self] at hget
        obtain rfl := Option.some.inj hget
        refine ⟨⟨s, by simp, rfl⟩, ?_⟩
        have hnil := h.contributions_eq_nil hfresh
        change [] = ambient globals s.place ++
          visited.flatMap (doc.contributions sourceType s.place)
        rw [hnil, List.append_nil]
        exact (if_neg s.scopeKind_ne.2).symm
  · rw [if_neg hopens, if_neg hopens]
    refine ⟨h.ranked, ?_, hold⟩
    simp

/-- Entering a site and declaring its names keeps the invariant. -/
theorem Tracks.step {visited : List Site} {g : ScopeGraph}
    (h : Tracks doc sourceType globals visited g) {p s : Site} (hs : s ∈ p.children)
    {current : Nat} (hcurrent : g.Climbs current (p.chain sourceType))
    (hnodup : ((Site.root doc.root :: (visited ++ [s])).map Site.address).Nodup) :
    Tracks doc sourceType globals (visited ++ [s])
      (s.declarations.foldl (declare doc (g.enter current s).2) (g.enter current s).1) := by
  obtain ⟨hranked, hplaces, hscopes⟩ := h.enter hs hcurrent (h.place_notMem hnodup)
  have hclimbs := hcurrent.enter_self hs
  have hdistinct : (g.enter current s).1.places.Nodup := hplaces ▸ nodup_boundaryPlaces hnodup
  have hget? := get?_foldl_declare doc s.declarations _ hranked hdistinct hclimbs
    fun d hd ↦ Site.exists_place?_eq hs sourceType hd
  refine ⟨ranked_foldl_declare doc _ _ _ hranked, ?_, ?_, ?_, ?_⟩
  · rw [places_foldl_declare, hplaces]
  · intro id scope hget
    rw [hget?] at hget
    obtain ⟨old, hold, rfl⟩ := Option.map_eq_some_iff.mp hget
    exact (hscopes id old hold).1
  · intro t ht
    rw [← List.cons_append, List.mem_append, List.mem_singleton] at ht
    rcases ht with ht | rfl
    · obtain ⟨id, hid⟩ := h.located t ht
      exact ⟨id, Climbs.foldl_declare doc _ _ _ (hid.enter current s)⟩
    · exact ⟨_, Climbs.foldl_declare doc _ _ _ hclimbs⟩
  · intro id scope hget
    rw [hget?] at hget
    obtain ⟨old, hold, rfl⟩ := Option.map_eq_some_iff.mp hget
    rw [List.flatMap_append, List.flatMap_singleton, ← List.append_assoc]
    exact congrArg (· ++ _) (hscopes id old hold).2

/-- Visiting a site from a scope of its parent keeps the invariant for the sites of its subtree. -/
def VisitTracks (doc : Document) (sourceType : SourceType) (globals : List String) (s : Site) :
    Prop :=
  ∀ (p : Site) (visited : List Site) (g : ScopeGraph) (current : Nat), s ∈ p.children →
    Tracks doc sourceType globals visited g → g.Climbs current (p.chain sourceType) →
    ((Site.root doc.root :: (visited ++ s.subtree)).map Site.address).Nodup →
      Tracks doc sourceType globals (visited ++ s.subtree) (visitSite doc current g s)

theorem Tracks.foldl_visitSite {p : Site} {current : Nat} (cs : List Site) :
    ∀ (visited : List Site) (g : ScopeGraph),
      (∀ c ∈ cs, c ∈ p.children ∧ VisitTracks doc sourceType globals c) →
      Tracks doc sourceType globals visited g → g.Climbs current (p.chain sourceType) →
      ((Site.root doc.root :: (visited ++ cs.flatMap Site.subtree)).map Site.address).Nodup →
        Tracks doc sourceType globals (visited ++ cs.flatMap Site.subtree)
          (cs.foldl (visitSite doc current) g) := by
  induction cs with
  | nil =>
    intro visited g _ h _ _
    rw [List.flatMap_nil, List.append_nil]
    exact h
  | cons c rest ih =>
    intro visited g hcs h hcurrent hnodup
    rw [List.flatMap_cons, ← List.append_assoc] at hnodup ⊢
    obtain ⟨hc, hvisit⟩ := hcs c List.mem_cons_self
    have hprefix : ((Site.root doc.root :: (visited ++ c.subtree)).map Site.address).Nodup :=
      hnodup.sublist (((List.sublist_append_left _ _).cons_cons _).map _)
    exact ih (visited ++ c.subtree) (visitSite doc current g c)
      (fun d hd ↦ hcs d (List.mem_cons_of_mem _ hd))
      (hvisit p visited g current hc h hcurrent hprefix)
      (Climbs.visitSite doc c current g hcurrent) hnodup

theorem visitTracks (s : Site) : VisitTracks doc sourceType globals s := by
  induction s using Site.inductionOn with
  | step s ih =>
    intro p visited g current hs h hcurrent hnodup
    rw [Site.subtree_eq, List.append_cons] at hnodup ⊢
    have hprefix : ((Site.root doc.root :: (visited ++ [s])).map Site.address).Nodup :=
      hnodup.sublist (((List.sublist_append_left _ _).cons_cons _).map _)
    rw [visitSite_eq]
    exact Tracks.foldl_visitSite s.children (visited ++ [s]) _ (fun c hc ↦ ⟨hc, ih c hc⟩)
      (h.step hs hcurrent hprefix) (Climbs.foldl_declare doc _ _ _ (hcurrent.enter_self hs))
      hnodup

/-! ### The graph of a document -/

/-- The global scope alone, with its bindings. -/
def globalOnly (root : Node) (bindings : List Binding) : ScopeGraph :=
  ⟨[⟨.global, none, some (Site.root root), bindings⟩]⟩

theorem bind_globalOnly (root : Node) (bindings : List Binding) {binding : Binding}
    (h : binding.name ≠ "") :
    (globalOnly root bindings).bind 0 binding = globalOnly root (bindings ++ [binding]) :=
  if_neg h

theorem foldl_bind_globalOnly (root : Node) (globals : List String) :
    ∀ bindings : List Binding,
      globals.foldl (fun g name ↦ g.bind 0 ⟨name, "global", none⟩) (globalOnly root bindings) =
        globalOnly root (bindings ++ ambient globals ⟨.global, []⟩) := by
  induction globals with
  | nil => intro bindings; simp [ambient]
  | cons name rest ih =>
    intro bindings
    rw [List.foldl_cons]
    by_cases hname : name = ""
    · rw [bind_of_name_eq_empty _ _ hname, ih]
      simp [ambient, hname]
    · rw [bind_globalOnly root bindings hname, ih]
      simp [ambient, hname]

theorem roots_eq (root : Node) (sourceType : SourceType) (globals : List String) :
    roots root sourceType globals =
      match sourceType with
      | .module => (globalOnly root (ambient globals ⟨.global, []⟩)).openScope .module (some 0)
          (some (Site.root root))
      | .script => globalOnly root (ambient globals ⟨.global, []⟩) := by
  have hambient := foldl_bind_globalOnly root globals []
  rw [List.nil_append] at hambient
  rw [← hambient]
  cases sourceType <;> rfl

theorem climbs_globalOnly (root : Node) (bindings : List Binding) :
    (globalOnly root bindings).Climbs 0 [⟨.global, []⟩] :=
  ⟨Nat.zero_lt_one, rfl⟩

/-- Before any site is visited, the graph climbs from its last scope through those of the root. -/
theorem climbs_roots (doc : Document) (sourceType : SourceType) (globals : List String) :
    (roots doc.root sourceType globals).Climbs ((roots doc.root sourceType globals).size - 1)
      ((Site.root doc.root).chain sourceType) := by
  rw [roots_eq, Site.chain_root]
  cases sourceType with
  | module => exact (climbs_globalOnly doc.root _).openScope_self .module _
  | script => exact climbs_globalOnly doc.root _

theorem get?_globalOnly {root : Node} {bindings : List Binding} {id : Nat} {scope : Scope}
    (h : (globalOnly root bindings).get? id = some scope) :
    scope = ⟨.global, none, some (Site.root root), bindings⟩ := by
  have hlt : id < 1 := lt_size_of_get? h
  obtain rfl : id = 0 := by omega
  exact (Option.some.inj h).symm

theorem ranked_globalOnly (root : Node) (bindings : List Binding) :
    (globalOnly root bindings).Ranked := by
  intro id scope h parent hparent
  rw [get?_globalOnly h] at hparent
  cases hparent

/-- The scopes before any site is visited are opened by the root and bind the ambient names. -/
theorem get?_roots {root : Node} {sourceType : SourceType} {globals : List String} {id : Nat}
    {scope : Scope} (h : (roots root sourceType globals).get? id = some scope) :
    scope.block = some (Site.root root) ∧ scope.bindings = ambient globals scope.place := by
  rw [roots_eq] at h
  cases sourceType with
  | module =>
    by_cases hid : id < 1
    · rw [get?_globalOnly ((get?_openScope_of_lt hid _ _ _).symm.trans h)]
      exact ⟨rfl, rfl⟩
    · have hlt : id < 2 := lt_size_of_get? h
      obtain rfl : id = 1 := by omega
      rw [← Option.some.inj h]
      exact ⟨rfl, rfl⟩
  | script =>
    rw [get?_globalOnly h]
    exact ⟨rfl, rfl⟩

theorem tracks_roots (doc : Document) (sourceType : SourceType) (globals : List String) :
    Tracks doc sourceType globals [] (roots doc.root sourceType globals) where
  ranked := by
    rw [roots_eq]
    cases sourceType with
    | module =>
      refine (ranked_globalOnly doc.root _).openScope .module ?_ _
      intro id hid
      rw [← Option.some.inj hid]
      exact Nat.zero_lt_one
    | script => exact ranked_globalOnly doc.root _
  places_eq := by
    rw [roots_eq]
    cases sourceType <;> rfl
  located := by
    intro s hs
    rw [List.mem_singleton.mp hs]
    exact ⟨_, climbs_roots doc sourceType globals⟩
  opened := fun _ _ hget ↦ ⟨_, List.mem_cons_self, (get?_roots hget).1⟩
  bindings_eq := by
    intro id scope hget
    rw [List.flatMap_nil, List.append_nil]
    exact (get?_roots hget).2

/-- The graph of a document tracks the sites below its root, in pre-order. -/
theorem tracks_ofDocument (doc : Document) (sourceType : SourceType) (globals : List String) :
    Tracks doc sourceType globals doc.root.sites.tail (ofDocument doc sourceType globals) := by
  have hsites : doc.root.sites.tail = (Site.root doc.root).children.flatMap Site.subtree := by
    rw [← Site.subtree_root, Site.subtree_eq, List.tail_cons]
  have hnodup := Site.nodup_map_address_sites doc.root
  rw [← Site.subtree_root, Site.subtree_eq] at hnodup
  rw [ofDocument, hsites, ← List.nil_append ((Site.root doc.root).children.flatMap _)]
  change Tracks doc sourceType globals _ (visitAll doc _ (Site.root doc.root).node
    (Site.root doc.root).above 0 _ (Site.root doc.root).node.children)
  rw [visitAll_children]
  exact Tracks.foldl_visitSite _ [] _ (fun c hc ↦ ⟨hc, visitTracks c⟩)
    (tracks_roots doc sourceType globals) (climbs_roots doc sourceType globals) hnodup

theorem Tracks.nodup_places {g : ScopeGraph}
    (h : Tracks doc sourceType globals doc.root.sites.tail g) : g.places.Nodup := by
  have haddresses := Site.nodup_map_address_sites doc.root
  rw [Site.sites_eq_cons] at haddresses
  rw [h.places_eq]
  exact nodup_boundaryPlaces haddresses

/-- The first scope is the global one. -/
theorem Tracks.getElem?_zero {g : ScopeGraph} {sites : List Site}
    (h : Tracks doc sourceType globals sites g) : g.places[0]? = some ⟨.global, []⟩ := by
  rw [h.places_eq]
  cases sourceType <;> rfl

end ScopeGraph

end TagScope
