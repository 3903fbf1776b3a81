import Mathlib.Data.List.Sort
import TagScope.Proofs.Scope.Walk

/-!
# The shape of the scope graph

A walk opens scopes depth first: each scope but the first is opened under one that lies above the
scope opened just before it. Every event of a walk keeps this (`Walk.Orderly.step`), so it holds of
the graph of a document (`depthFirst_ofDocument`). In a graph that is numbered in this way the
scopes below a scope are consecutive (`DepthFirst.mem_lineage_of_le`), and listing a scope before
its children, child after child, lists them by their numbers (`DepthFirst.preorder_eq_filter`).

Together with the places at which the scopes stand this gives the shape of the graph: it is the tree
of the boundaries below the root, hung under the scopes of the root (`shape_ofDocument`).
-/

set_option autoImplicit false

namespace TagScope

namespace ScopeGraph

variable {g g' : ScopeGraph}

/-! ### Lineages -/

theorem Ranked.self_mem_lineage (hg : g.Ranked) {id : Nat} (h : id < g.size) :
    id ∈ g.lineage id := by
  obtain ⟨scope, hscope⟩ := exists_get?_of_lt h
  rw [hg.lineage_eq hscope]
  exact List.mem_cons_self

/-- Above a scope lie the scope itself and what lies above its parent. -/
theorem Ranked.mem_lineage_iff (hg : g.Ranked) {id child other : Nat}
    (h : g.parent? child = some id) :
    other ∈ g.lineage child ↔ other = child ∨ other ∈ g.lineage id := by
  obtain ⟨scope, hscope, hparent⟩ := Option.bind_eq_some_iff.mp h
  rw [hg.lineage_eq hscope, hparent, Option.elim_some, List.mem_cons]

/-- A scope without a parent has only itself above it. -/
theorem Ranked.eq_of_mem_lineage (hg : g.Ranked) {id other : Nat} (h : g.parent? id = none)
    (hother : other ∈ g.lineage id) : other = id := by
  obtain ⟨scope, hscope⟩ := exists_get?_of_lt (le_of_mem_lineageIn hother).2
  have hparent : scope.parent = none := by rwa [parent?, hscope] at h
  rw [hg.lineage_eq hscope, hparent] at hother
  exact List.mem_singleton.mp hother

theorem Ranked.mem_lineage_trans (hg : g.Ranked) {top middle : Nat}
    (htop : top ∈ g.lineage middle) (id : Nat) (h : middle ∈ g.lineage id) :
    top ∈ g.lineage id := by
  induction id using Nat.strong_induction_on with
  | h id ih =>
    cases hparent : g.parent? id with
    | none => rwa [← hg.eq_of_mem_lineage hparent h]
    | some parent =>
      rw [hg.mem_lineage_iff hparent] at h
      rcases h with rfl | h
      · exact htop
      · exact (hg.mem_lineage_iff hparent).mpr
          (Or.inr (ih parent (hg.lt_of_parent? hparent) h))

/-- What lies below a scope is the scope itself and what lies below its children. -/
theorem Ranked.mem_lineage_iff_exists_child (hg : g.Ranked) {id : Nat} (hid : id < g.size)
    (other : Nat) :
    id ∈ g.lineage other ↔ other = id ∨ ∃ child ∈ g.children id, child ∈ g.lineage other := by
  constructor
  · intro h
    induction other using Nat.strong_induction_on with
    | h other ih =>
      cases hparent : g.parent? other with
      | none => exact Or.inl (hg.eq_of_mem_lineage hparent h).symm
      | some parent =>
        rcases (hg.mem_lineage_iff hparent).mp h with heq | hbelow
        · exact Or.inl heq.symm
        · refine Or.inr ?_
          rcases ih parent (hg.lt_of_parent? hparent) hbelow with rfl | ⟨child, hchild, hmem⟩
          · exact ⟨other, mem_children_iff.mpr hparent,
              hg.self_mem_lineage (le_of_mem_lineageIn h).2⟩
          · exact ⟨child, hchild, (hg.mem_lineage_iff hparent).mpr (Or.inr hmem)⟩
  · rintro (rfl | ⟨child, hchild, hmem⟩)
    · exact hg.self_mem_lineage hid
    · exact hg.mem_lineage_trans (hg.mem_lineage_of_parent? (mem_children_iff.mp hchild)) other hmem

/-! ### Graphs numbered depth first -/

/-- Each scope but the first is opened under one that lies above the scope opened just before. -/
structure DepthFirst (g : ScopeGraph) : Prop where
  ranked : g.Ranked
  exists_parent : ∀ id, id + 1 < g.size → ∃ parent ∈ g.lineage id, g.parent? (id + 1) = some parent

theorem DepthFirst.of_sameShape (h : g.DepthFirst) (hg' : g'.Ranked) (hshape : SameShape g' g) :
    g'.DepthFirst where
  ranked := hg'
  exists_parent id hid := by
    rw [← hshape.size_eq] at hid
    rw [← hshape.lineage_eq, ← hshape.parent?_eq]
    exact h.exists_parent id hid

theorem DepthFirst.bind (h : g.DepthFirst) (target : Nat) (binding : Binding) :
    (g.bind target binding).DepthFirst where
  ranked := h.ranked.bind target binding
  exists_parent id hid := by
    rw [size_bind] at hid
    rw [lineage_bind, (sameShape_bind g target binding).parent?_eq]
    exact h.exists_parent id hid

/-- A scope may be opened under any scope that lies above the newest one. -/
theorem DepthFirst.openScope (h : g.DepthFirst) (kind : ScopeKind) {parent : Nat}
    (hparent : parent ∈ g.lineage (g.size - 1)) (block : Option Site) :
    (g.openScope kind (some parent) block).DepthFirst where
  ranked := h.ranked.openScope kind (fun id hid ↦ by
    have hle := le_of_mem_lineageIn hparent
    have hsize : g.newestFirst.length = g.size := rfl
    rw [← Option.some.inj hid]
    omega) block
  exists_parent id hid := by
    rw [size_openScope] at hid
    rw [lineage_openScope_of_lt (by omega)]
    by_cases hold : id + 1 < g.size
    · obtain ⟨above, habove, heq⟩ := h.exists_parent id hold
      refine ⟨above, habove, ?_⟩
      rw [parent?, get?_openScope_of_lt hold]
      exact heq
    · obtain hlast : id + 1 = g.size := by omega
      refine ⟨parent, ?_, ?_⟩
      · rwa [← hlast, Nat.add_sub_cancel] at hparent
      · rw [parent?, hlast, get?_openScope_self]
        rfl

/-- Every scope lies below the first one. -/
theorem DepthFirst.zero_mem_lineage (h : g.DepthFirst) {id : Nat} (hid : id < g.size) :
    0 ∈ g.lineage id := by
  induction id using Nat.strong_induction_on with
  | h id ih =>
    cases id with
    | zero => exact h.ranked.self_mem_lineage hid
    | succ id =>
      obtain ⟨parent, -, hparent⟩ := h.exists_parent id hid
      have hlt := h.ranked.lt_of_parent? hparent
      exact (h.ranked.mem_lineage_iff hparent).mpr (Or.inr (ih parent hlt (by omega)))

theorem DepthFirst.mem_lineage_of_succ (h : g.DepthFirst) {first id : Nat}
    (hmem : first ∈ g.lineage (id + 1)) (hle : first ≤ id) : first ∈ g.lineage id := by
  obtain ⟨parent, habove, hparent⟩ := h.exists_parent id (le_of_mem_lineageIn hmem).2
  rcases (h.ranked.mem_lineage_iff hparent).mp hmem with rfl | hbelow
  · exact absurd hle (Nat.not_succ_le_self id)
  · exact h.ranked.mem_lineage_trans hbelow id habove

/-- The scopes below a scope are consecutive. -/
theorem DepthFirst.mem_lineage_of_le (h : g.DepthFirst) {first middle last : Nat}
    (hmem : first ∈ g.lineage last) (hfirst : first ≤ middle) (hmiddle : middle ≤ last) :
    first ∈ g.lineage middle := by
  induction last, hmiddle using Nat.le_induction with
  | base => exact hmem
  | succ last hle ih => exact ih (h.mem_lineage_of_succ hmem (hfirst.trans hle))

/-- What lies below a scope was opened before all that lies below a later sibling. -/
theorem DepthFirst.lt_of_siblings (h : g.DepthFirst) {id child sibling below other : Nat}
    (hchild : child ∈ g.children id) (hsibling : sibling ∈ g.children id) (hlt : child < sibling)
    (hbelow : child ∈ g.lineage below) (hother : sibling ∈ g.lineage other) : below < other := by
  by_contra hge
  have hle := (le_of_mem_lineageIn hother).1
  -- Otherwise the sibling would lie between the child and a scope below it.
  have hmem := h.mem_lineage_of_le hbelow hlt.le (by omega : sibling ≤ below)
  rcases (h.ranked.mem_lineage_iff (mem_children_iff.mp hsibling)).mp hmem with rfl | habove
  · exact absurd hlt (Nat.lt_irrefl _)
  · have hup := (le_of_mem_lineageIn habove).1
    have hdown := h.ranked.lt_of_parent? (mem_children_iff.mp hchild)
    omega

/-! ### The pre-order -/

theorem lt_size_of_mem_children {id child : Nat} (h : child ∈ g.children id) : child < g.size := by
  rw [children_eq_filter] at h
  exact List.mem_range.mp (List.mem_filter.mp h).1

theorem pairwise_children (g : ScopeGraph) (id : Nat) : (g.children id).Pairwise (· < ·) := by
  rw [children_eq_filter]
  exact List.pairwise_lt_range.filter _

/-- The pre-order from a scope lists what lies below it, if it goes deep enough. -/
theorem Ranked.mem_preorderWithin_iff (hg : g.Ranked) (depth : Nat) :
    ∀ {id : Nat}, id < g.size → g.size ≤ id + depth → ∀ other,
      other ∈ g.preorderWithin depth id ↔ id ∈ g.lineage other := by
  induction depth with
  | zero => intro id hid hdepth; omega
  | succ depth ih =>
    intro id hid hdepth other
    rw [preorderWithin, List.mem_cons, List.mem_flatMap, hg.mem_lineage_iff_exists_child hid other]
    refine or_congr_right (exists_congr fun child ↦ and_congr_right fun hchild ↦ ?_)
    have hlt := hg.lt_of_parent? (mem_children_iff.mp hchild)
    exact ih (lt_size_of_mem_children hchild) (by omega) other

theorem DepthFirst.pairwise_preorderWithin (h : g.DepthFirst) (depth : Nat) :
    ∀ {id : Nat}, id < g.size → g.size ≤ id + depth →
      (g.preorderWithin depth id).Pairwise (· < ·) := by
  induction depth with
  | zero => intro id hid hdepth; omega
  | succ depth ih =>
    intro id hid hdepth
    have hbelow : ∀ child ∈ g.children id, child < g.size ∧ g.size ≤ child + depth := by
      intro child hchild
      have hlt := h.ranked.lt_of_parent? (mem_children_iff.mp hchild)
      exact ⟨lt_size_of_mem_children hchild, by omega⟩
    have hmem : ∀ child ∈ g.children id, ∀ other,
        other ∈ g.preorderWithin depth child ↔ child ∈ g.lineage other := fun child hchild ↦
      h.ranked.mem_preorderWithin_iff depth (hbelow child hchild).1 (hbelow child hchild).2
    rw [preorderWithin, List.pairwise_cons, List.pairwise_flatMap]
    refine ⟨?_, fun child hchild ↦ ih (hbelow child hchild).1 (hbelow child hchild).2, ?_⟩
    · intro other hother
      obtain ⟨child, hchild, hlisted⟩ := List.mem_flatMap.mp hother
      have hle := (le_of_mem_lineageIn ((hmem child hchild other).mp hlisted)).1
      exact (h.ranked.lt_of_parent? (mem_children_iff.mp hchild)).trans_le hle
    · refine (g.pairwise_children id).imp_of_mem fun {child sibling} hchild hsibling hlt ↦ ?_
      intro below hlisted other hother
      exact h.lt_of_siblings hchild hsibling hlt ((hmem child hchild below).mp hlisted)
        ((hmem sibling hsibling other).mp hother)

/-- The pre-order from a scope lists the scopes below it by their numbers. -/
theorem DepthFirst.preorder_eq_filter (h : g.DepthFirst) {id : Nat} (hid : id < g.size) :
    g.preorder id = (List.range g.size).filter fun other ↦ id ∈ g.lineage other := by
  have hmem := h.ranked.mem_preorderWithin_iff g.size hid (Nat.le_add_left _ _)
  refine (h.pairwise_preorderWithin g.size hid (Nat.le_add_left _ _)).eq_of_mem_iff
    (List.pairwise_lt_range.filter _) fun other ↦ ?_
  rw [hmem, List.mem_filter, List.mem_range, decide_eq_true_eq]
  exact ⟨fun habove ↦ ⟨(le_of_mem_lineageIn habove).2, habove⟩, And.right⟩

/-- The pre-order from the first scope lists all scopes by their numbers. -/
theorem DepthFirst.preorder_zero (h : g.DepthFirst) (hsize : 0 < g.size) :
    g.preorder 0 = List.range g.size := by
  rw [h.preorder_eq_filter hsize, List.filter_eq_self]
  intro id hid
  exact decide_eq_true (h.zero_mem_lineage (List.mem_range.mp hid))

end ScopeGraph

/-! ### Walks open scopes depth first -/

namespace Walk

/-- The scopes that are open lie above one another and above the newest scope. -/
structure Orderly (w : Walk) : Prop where
  depthFirst : w.graph.DepthFirst
  nested : w.stack.Pairwise fun inner outer ↦ outer ∈ w.graph.lineage inner
  reached : ∀ id ∈ 0 :: w.stack, id ∈ w.graph.lineage (w.graph.size - 1)

theorem current_mem (w : Walk) : w.current ∈ 0 :: w.stack := by
  unfold current
  cases w.stack with
  | nil => exact List.mem_cons_self
  | cons top rest => exact List.mem_cons_of_mem _ List.mem_cons_self

theorem Orderly.mem_lineage_current {w : Walk} (h : w.Orderly) {id : Nat}
    (hid : id ∈ 0 :: w.stack) : id ∈ w.graph.lineage w.current := by
  have hlt : w.current < w.graph.size := by
    have hle := ScopeGraph.le_of_mem_lineageIn (h.reached _ w.current_mem)
    exact hle.1.trans_lt hle.2
  rcases List.mem_cons.mp hid with rfl | hid
  · exact h.depthFirst.zero_mem_lineage hlt
  · obtain ⟨top, rest, hstack⟩ := List.exists_cons_of_ne_nil (List.ne_nil_of_mem hid)
    have hcurrent : w.current = top := by rw [current, hstack]; rfl
    have hnested := h.nested
    rw [hstack] at hid hnested
    rcases List.mem_cons.mp hid with rfl | hid
    · exact hcurrent ▸ h.depthFirst.ranked.self_mem_lineage hlt
    · exact hcurrent ▸ (List.pairwise_cons.mp hnested).1 id hid

theorem Orderly.opens {w : Walk} (h : w.Orderly) (kind : ScopeKind) :
    (w.step (.opens kind)).Orderly := by
  have hlast := h.reached _ w.current_mem
  have hold : ∀ id ∈ w.stack, id < w.graph.size := by
    intro id hid
    have hle := ScopeGraph.le_of_mem_lineageIn (h.reached id (List.mem_cons_of_mem _ hid))
    exact hle.1.trans_lt hle.2
  -- Above the new scope lies what lies above the current one.
  have hnew : ∀ id ∈ 0 :: w.graph.size :: w.stack,
      id ∈ (w.graph.openScope kind (some w.current) none).lineage w.graph.size := by
    intro id hid
    rw [ScopeGraph.lineage_openScope_self, Option.elim_some]
    rcases List.mem_cons.mp hid with rfl | hid
    · exact List.mem_cons_of_mem _ (h.mem_lineage_current List.mem_cons_self)
    · rcases List.mem_cons.mp hid with rfl | hid
      · exact List.mem_cons_self
      · exact List.mem_cons_of_mem _ (h.mem_lineage_current (List.mem_cons_of_mem _ hid))
  refine ⟨h.depthFirst.openScope kind hlast none, List.pairwise_cons.mpr ⟨?_, ?_⟩, hnew⟩
  · intro id hid
    exact hnew id (List.mem_cons_of_mem _ (List.mem_cons_of_mem _ hid))
  · refine h.nested.imp_of_mem fun {inner outer} hinner _ hmem ↦ ?_
    exact (ScopeGraph.lineage_openScope_of_lt (hold inner hinner) kind _ _).symm ▸ hmem

/-- Every event keeps a walk orderly. -/
theorem Orderly.step {w : Walk} (h : w.Orderly) (event : Event) : (w.step event).Orderly := by
  cases event with
  | opens kind => exact h.opens kind
  | closes =>
    refine ⟨h.depthFirst, h.nested.tail, fun id hid ↦ h.reached id ?_⟩
    exact (w.stack.tail_sublist.cons_cons 0).subset hid
  | declares destination name =>
    refine ⟨h.depthFirst.bind _ _, h.nested.imp fun hmem ↦ ?_, fun id hid ↦ ?_⟩
    · exact (ScopeGraph.lineage_bind w.graph _ _ _).symm ▸ hmem
    · change id ∈ (w.graph.bind _ _).lineage ((w.graph.bind _ _).size - 1)
      rw [ScopeGraph.lineage_bind, ScopeGraph.size_bind]
      exact h.reached id hid
  | uses name role => exact ⟨h.depthFirst, h.nested, h.reached⟩

theorem Orderly.run (events : List Event) : ∀ {w : Walk}, w.Orderly → (w.run events).Orderly := by
  induction events with
  | nil => intro w h; exact h
  | cons event rest ih => intro w h; exact ih (h.step event)

end Walk

namespace ScopeGraph

variable (doc : Document) (sourceType : SourceType) (globals : List String)

theorem depthFirst_globalOnly (root : Node) (bindings : List Binding) :
    (globalOnly root bindings).DepthFirst where
  ranked := ranked_globalOnly root bindings
  exists_parent id hid := absurd hid (by change ¬ id + 1 < 1; omega)

theorem orderly_start : (doc.start sourceType globals).Orderly := by
  have hroots : (roots doc.root sourceType globals).DepthFirst := by
    rw [roots_eq]
    cases sourceType with
    | module => exact (depthFirst_globalOnly doc.root _).openScope .module List.mem_cons_self _
    | script => exact depthFirst_globalOnly doc.root _
  have hlast := size_roots doc.root sourceType globals
  have hlt := (doc.climbs_roots sourceType globals).lt_size
  refine ⟨hroots, List.pairwise_singleton _ _, fun id hid ↦ ?_⟩
  change id ∈ (roots doc.root sourceType globals).lineage
    ((roots doc.root sourceType globals).size - 1)
  rw [hlast]
  rcases List.mem_cons.mp hid with rfl | hid
  · exact hroots.zero_mem_lineage hlt
  · rw [List.mem_singleton.mp hid]
    exact hroots.ranked.self_mem_lineage hlt

/-- The scopes of a document are numbered depth first. -/
theorem depthFirst_ofDocument : (ofDocument doc sourceType globals).DepthFirst :=
  ((orderly_start doc sourceType globals).run doc.trace).depthFirst.of_sameShape
    (tracks_ofDocument doc sourceType globals).ranked (doc.mirrors_walk sourceType globals).shape

end ScopeGraph

/-! ### What opens the scopes -/

/-- The kind of a scope and the site that opens it. -/
abbrev Opening := ScopeKind × Site

def Opening.place (opening : Opening) : Place := ⟨opening.1, opening.2.address⟩

def Site.opening (s : Site) : Opening := (s.scopeKind, s)

/-- The scopes that the root of a document opens, outermost first. -/
def Document.rootOpenings (doc : Document) : SourceType → List Opening
  | .module => [(.global, Site.root doc.root), (.module, Site.root doc.root)]
  | .script => [(.global, Site.root doc.root)]

namespace Document

theorem map_place_rootOpenings (doc : Document) (sourceType : SourceType) :
    (doc.rootOpenings sourceType).map Opening.place = sourceType.rootPlaces.reverse := by
  cases sourceType <;> rfl

theorem eq_root_of_mem_rootOpenings {doc : Document} {sourceType : SourceType} {opening : Opening}
    (h : opening ∈ doc.rootOpenings sourceType) : opening.2 = Site.root doc.root := by
  cases sourceType with
  | module =>
    rcases List.mem_cons.mp h with rfl | h
    · rfl
    · rw [List.mem_singleton.mp h]
  | script => rw [List.mem_singleton.mp h]

end Document

namespace ScopeGraph

/-- What opened a scope of a graph. -/
def opening? (g : ScopeGraph) (id : Nat) : Option Opening :=
  (g.get? id).bind fun scope ↦ scope.block.map fun s ↦ (scope.kind, s)

variable {doc : Document} {sourceType : SourceType} {globals : List String} {g : ScopeGraph}

/-- A scope at the place of an opening was opened by it. -/
theorem Tracks.opening?_eq (h : Tracks doc sourceType globals doc.root.sites.tail g) {id : Nat}
    {opening : Opening} (hsite : opening.2 ∈ doc.root.sites)
    (hplace : g.places[id]? = some opening.place) : g.opening? id = some opening := by
  obtain ⟨scope, hscope, heq⟩ := exists_get?_of_place hplace
  obtain ⟨s, hs, hblock⟩ := h.opened id scope hscope
  have hkind : scope.kind = opening.1 := congrArg Place.kind heq
  have haddress : s.address = opening.2.address := by
    have haddress := congrArg Place.address heq
    rwa [Scope.place, hblock] at haddress
  rw [← Site.sites_eq_cons] at hs
  rw [opening?, hscope, Option.bind_some, hblock, Option.map_some, hkind,
    Site.eq_of_address_eq hs hsite haddress]

theorem Tracks.map_opening?_eq (h : Tracks doc sourceType globals doc.root.sites.tail g)
    (openings : List Opening) :
    ∀ ids : List Nat, (∀ opening ∈ openings, opening.2 ∈ doc.root.sites) →
      ids.map (fun id ↦ g.places[id]?) = (openings.map Opening.place).map some →
        ids.map g.opening? = openings.map some := by
  induction openings with
  | nil =>
    intro ids _ hplaces
    rw [List.map_eq_nil_iff.mp hplaces]
    rfl
  | cons opening rest ih =>
    intro ids hsites hplaces
    obtain ⟨id, more, rfl, hplace, hmore⟩ := List.map_eq_cons_iff.mp hplaces
    rw [List.map_cons, List.map_cons, h.opening?_eq (hsites opening List.mem_cons_self) hplace,
      ih more (fun other hother ↦ hsites other (List.mem_cons_of_mem _ hother)) hmore]

theorem filter_opensScope_tail (root : Node) :
    root.sites.tail.filter Site.opensScope = root.sites.tail.filter Site.isBoundary := by
  refine List.filter_congr fun s hs ↦ ?_
  obtain ⟨p, -, hchild⟩ := Site.exists_parent_of_mem_tail hs
  rw [Site.isBoundary_of_mem_children hchild]

theorem map_getElem?_range (places : List Place) :
    (List.range places.length).map (fun id ↦ places[id]?) = places.map some := by
  refine List.ext_getElem (by simp) fun id hid _ ↦ ?_
  have hlt : id < places.length := by simpa using hid
  simp [hlt]

/-- The scopes of a document are those of the root and those of the boundaries below it, in
pre-order. -/
theorem Tracks.map_opening?_range (h : Tracks doc sourceType globals doc.root.sites.tail g) :
    (List.range g.size).map g.opening? =
      (doc.rootOpenings sourceType ++
        (doc.root.sites.tail.filter Site.opensScope).map Site.opening).map some := by
  refine h.map_opening?_eq _ _ (fun opening hopening ↦ ?_) ?_
  · rcases List.mem_append.mp hopening with hroot | hboundary
    · rw [Document.eq_root_of_mem_rootOpenings hroot]
      exact Site.mem_sites_iff.mpr .refl
    · obtain ⟨s, hs, rfl⟩ := List.mem_map.mp hboundary
      exact Site.mem_sites_of_mem_tail (List.mem_filter.mp hs).1
  · have hplaces : (doc.rootOpenings sourceType ++
        (doc.root.sites.tail.filter Site.opensScope).map Site.opening).map Opening.place =
          g.places := by
      rw [List.map_append, List.map_map, doc.map_place_rootOpenings, filter_opensScope_tail,
        h.places_eq]
      rfl
    rw [hplaces, ← length_places]
    exact map_getElem?_range g.places

/-- The scopes from the innermost one at a site up are those of the boundaries among the site and
its ancestors, and then those of the root. -/
theorem Tracks.map_opening?_lineage (h : Tracks doc sourceType globals doc.root.sites.tail g)
    {s : Site} (hs : s ∈ doc.root.sites) :
    (g.lineage (g.innermost s.address)).map g.opening? =
      (s.enclosures.map Site.opening ++ (doc.rootOpenings sourceType).reverse).map some := by
  have hwithin := Site.mem_sites_iff.mp hs
  refine h.map_opening?_eq _ _ (fun opening hopening ↦ ?_) ?_
  · rcases List.mem_append.mp hopening with hboundary | hroot
    · obtain ⟨e, he, rfl⟩ := List.mem_map.mp hboundary
      exact Site.mem_sites_iff.mpr (Site.within_of_mem_enclosures hwithin he)
    · rw [Document.eq_root_of_mem_rootOpenings (List.mem_reverse.mp hroot)]
      exact Site.mem_sites_iff.mpr .refl
  · have hchain : (s.enclosures.map Site.opening ++
        (doc.rootOpenings sourceType).reverse).map Opening.place = s.chain sourceType := by
      rw [List.map_append, List.map_map, List.map_reverse, doc.map_place_rootOpenings,
        List.reverse_reverse]
      rfl
    rw [hchain]
    exact (h.climbs_innermost hwithin).map_places

/-- A scope is listed once among the children of its parent, and among those of no other scope. -/
theorem count_children {id parent : Nat} (h : g.parent? id = some parent) (other : Nat) :
    (g.children other).count id = if other = parent then 1 else 0 := by
  have hnodup : (g.children other).Nodup := (g.pairwise_children other).imp Nat.ne_of_lt
  rw [hnodup.count]
  refine if_congr ?_ rfl rfl
  rw [mem_children_iff, h, Option.some_inj, eq_comm]

/-- The scope graph of a document is its tree of boundaries. Listed parents first it holds the
scopes of the root and one scope for each boundary below the root, in pre-order; every scope but the
first stands once among the children of its parent and nowhere else; and the scopes from the
innermost one at a site up, parent by parent, are those of the boundaries among the site and its
ancestors and then those of the root. -/
theorem shape_ofDocument (doc : Document) (sourceType : SourceType) (globals : List String) :
    (ofDocument doc sourceType globals).preorder 0 =
      List.range (ofDocument doc sourceType globals).size ∧
    ((ofDocument doc sourceType globals).preorder 0).map
        (ofDocument doc sourceType globals).opening? =
      (doc.rootOpenings sourceType ++
        (doc.root.sites.tail.filter Site.opensScope).map Site.opening).map some ∧
    (∀ id ∈ (ofDocument doc sourceType globals).preorder 0, id ≠ 0 →
      ∃ upper ∈ (ofDocument doc sourceType globals).preorder 0,
        (ofDocument doc sourceType globals).parent? id = some upper ∧
        ∀ other, ((ofDocument doc sourceType globals).children other).count id =
          if other = upper then 1 else 0) ∧
    (∀ id ∈ (ofDocument doc sourceType globals).preorder 0,
      (ofDocument doc sourceType globals).lineage id =
        id :: ((ofDocument doc sourceType globals).parent? id).elim []
          (ofDocument doc sourceType globals).lineage) ∧
    ∀ s ∈ doc.root.sites,
      ((ofDocument doc sourceType globals).lineage
          ((ofDocument doc sourceType globals).innermost s.address)).map
          (ofDocument doc sourceType globals).opening? =
        (s.enclosures.map Site.opening ++ (doc.rootOpenings sourceType).reverse).map some := by
  have htracks := tracks_ofDocument doc sourceType globals
  have hdepth := depthFirst_ofDocument doc sourceType globals
  have hsize : 0 < (ofDocument doc sourceType globals).size := by
    obtain ⟨scope, hscope, -⟩ := get?_zero_ofDocument doc sourceType globals
    exact lt_size_of_get? hscope
  have hpreorder := hdepth.preorder_zero hsize
  refine ⟨hpreorder, ?_, ?_, ?_, fun s hs ↦ htracks.map_opening?_lineage hs⟩
  · rw [hpreorder]
    exact htracks.map_opening?_range
  · intro id hid hne
    rw [hpreorder, List.mem_range] at hid
    obtain ⟨before, rfl⟩ := Nat.exists_eq_succ_of_ne_zero hne
    obtain ⟨upper, habove, hupper⟩ := hdepth.exists_parent before hid
    have hle := le_of_mem_lineageIn habove
    refine ⟨upper, ?_, hupper, count_children hupper⟩
    rw [hpreorder, List.mem_range]
    exact hle.1.trans_lt hle.2
  · intro id hid
    rw [hpreorder, List.mem_range] at hid
    obtain ⟨scope, hscope⟩ := exists_get?_of_lt hid
    rw [parent?, hscope]
    exact hdepth.ranked.lineage_eq hscope

end ScopeGraph

end TagScope
