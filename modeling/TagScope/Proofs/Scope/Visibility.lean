import TagScope.Proofs.Scope.Destinations
import TagScope.Scope.Resolution

/-!
# What is visible from a site

The upward search and its two exceptions, on the tree alone. The innermost scope at a site climbs
through the site's chain (`Tracks.climbs_innermost`). The search ends at a scope of the root, since
no boundary opens a module or a global scope (`Tracks.climb_innermost`). The scopes peeked into from
there are those of the first boundary below the root and of the first boundary inside it: scopes are
numbered in pre-order, so that these two are the first two after the root's
(`Tracks.head?_children_root`, `Tracks.head?_children_first`).
-/

set_option autoImplicit false

namespace TagScope

namespace ScopeGraph

variable {doc : Document} {sourceType : SourceType} {globals : List String} {g : ScopeGraph}

/-! ### Scopes of the root and scopes of boundaries -/

theorem exists_get?_of_place {id : Nat} {place : Place} (h : g.places[id]? = some place) :
    ∃ scope, g.get? id = some scope ∧ scope.place = place := by
  rw [getElem?_places] at h
  exact Option.map_eq_some_iff.mp h

theorem Tracks.map_address_block (h : Tracks doc sourceType globals doc.root.sites.tail g)
    {id : Nat} {scope : Scope} (hget : g.get? id = some scope) :
    scope.block.map Site.address = some scope.place.address := by
  obtain ⟨s, -, hblock⟩ := h.opened id scope hget
  simp only [Scope.place, hblock, Option.map_some, Option.elim_some]

theorem address_ne_nil_of_mem_tail {root : Node} {s : Site} (h : s ∈ root.sites.tail) :
    s.address ≠ [] := by
  obtain ⟨p, -, hs⟩ := Site.exists_parent_of_mem_tail h
  obtain ⟨index, -, haddress⟩ := Site.address_of_mem_children hs
  rw [haddress]
  exact List.cons_ne_nil _ _

/-- A scope at the address of a site below the root is the one that the site opened. -/
theorem Tracks.eq_place_of_address (h : Tracks doc sourceType globals doc.root.sites.tail g)
    {place : Place} (hplace : place ∈ g.places) {s : Site} (hs : s ∈ doc.root.sites.tail)
    (haddress : place.address = s.address) : s.isBoundary = true ∧ place = s.place := by
  rw [h.places_eq, List.mem_append, List.mem_reverse] at hplace
  rcases hplace with hroot | hboundary
  · have hnil := SourceType.address_of_mem_rootPlaces hroot
    exact absurd (haddress.symm.trans hnil) (address_ne_nil_of_mem_tail hs)
  · obtain ⟨t, ht, rfl⟩ := List.mem_map.mp hboundary
    obtain ⟨htmem, htboundary⟩ := List.mem_filter.mp ht
    obtain rfl := Site.eq_of_address_eq (Site.mem_sites_of_mem_tail htmem)
      (Site.mem_sites_of_mem_tail hs) haddress
    exact ⟨htboundary, rfl⟩

theorem Tracks.mem_rootPlaces_of_address (h : Tracks doc sourceType globals doc.root.sites.tail g)
    {place : Place} (hplace : place ∈ g.places) (haddress : place.address = []) :
    place ∈ sourceType.rootPlaces := by
  rw [h.places_eq, List.mem_append, List.mem_reverse] at hplace
  rcases hplace with hroot | hboundary
  · exact hroot
  · obtain ⟨t, ht, rfl⟩ := List.mem_map.mp hboundary
    exact absurd haddress (address_ne_nil_of_mem_tail (List.mem_filter.mp ht).1)

/-- The number of the scope that holds what is declared at the top level. -/
def rootId (sourceType : SourceType) : Nat :=
  sourceType.rootPlaces.length - 1

theorem size_roots (root : Node) (sourceType : SourceType) (globals : List String) :
    (roots root sourceType globals).size - 1 = rootId sourceType := by
  rw [roots_eq]
  cases sourceType <;> rfl

theorem Tracks.getElem?_rootId (h : Tracks doc sourceType globals doc.root.sites.tail g) :
    g.places[rootId sourceType]? = some sourceType.rootPlace := by
  rw [h.places_eq]
  cases sourceType <;> rfl

/-! ### The innermost scope at a site -/

theorem Tracks.climbs_rootId (h : Tracks doc sourceType globals doc.root.sites.tail g) :
    g.Climbs (rootId sourceType) sourceType.rootPlaces := by
  obtain ⟨id, hid⟩ := h.located _ List.mem_cons_self
  rw [Site.chain_root] at hid
  have hhead := hid.getElem?_head sourceType.head?_rootPlaces
  rwa [eq_of_getElem?_eq h.nodup_places hhead h.getElem?_rootId] at hid

theorem Tracks.openedAt_nil (h : Tracks doc sourceType globals doc.root.sites.tail g) :
    g.openedAt [] = some (rootId sourceType) := by
  obtain ⟨root, hroot, hrootPlace⟩ := exists_get?_of_place h.getElem?_rootId
  have hrootAddress : root.block.map Site.address = some [] := by
    rw [h.map_address_block hroot, hrootPlace]
    cases sourceType <;> rfl
  cases hopened : g.openedAt [] with
  | none => exact absurd hrootAddress (openedAtIn_eq_none hopened _ root hroot)
  | some id =>
    obtain ⟨⟨scope, hscope, haddress⟩, hnewest⟩ := openedAtIn_eq_some hopened
    have hplace : g.places[id]? = some scope.place := by rw [getElem?_places, get?, hscope]; rfl
    have hmem : scope.place ∈ sourceType.rootPlaces := by
      refine h.mem_rootPlaces_of_address (List.mem_of_getElem? hplace) ?_
      exact Option.some.inj ((h.map_address_block hscope).symm.trans haddress)
    have hle := hnewest _ root hroot hrootAddress
    cases sourceType with
    | script =>
      rw [List.mem_singleton.mp hmem] at hplace
      rw [eq_of_getElem?_eq h.nodup_places hplace h.getElem?_zero]
      rfl
    | module =>
      -- The module scope is newer than the global one, which has the same address.
      rcases List.mem_cons.mp hmem with heq | hmem
      · rw [heq] at hplace
        rw [eq_of_getElem?_eq h.nodup_places hplace h.getElem?_rootId]
      · rw [List.mem_singleton.mp hmem] at hplace
        have hzero := eq_of_getElem?_eq h.nodup_places hplace h.getElem?_zero
        rw [hzero] at hle
        exact absurd hle (by decide)

theorem Tracks.openedAt_address (h : Tracks doc sourceType globals doc.root.sites.tail g)
    {s : Site} (hs : s ∈ doc.root.sites.tail) {id : Nat} (hid : g.places[id]? = some s.place) :
    g.openedAt s.address = some id := by
  obtain ⟨scope, hscope, hplace⟩ := exists_get?_of_place hid
  have haddress : scope.block.map Site.address = some s.address := by
    rw [h.map_address_block hscope, hplace]
    rfl
  cases hopened : g.openedAt s.address with
  | none => exact absurd haddress (openedAtIn_eq_none hopened id scope hscope)
  | some other =>
    obtain ⟨⟨found, hfound, hfoundAddress⟩, -⟩ := openedAtIn_eq_some hopened
    have hother : g.places[other]? = some found.place := by
      rw [getElem?_places, get?, hfound]
      rfl
    obtain ⟨-, heq⟩ := h.eq_place_of_address (List.mem_of_getElem? hother) hs
      (Option.some.inj ((h.map_address_block hfound).symm.trans hfoundAddress))
    rw [heq] at hother
    rw [eq_of_getElem?_eq h.nodup_places hother hid]

theorem Tracks.openedAt_eq_none (h : Tracks doc sourceType globals doc.root.sites.tail g)
    {s : Site} (hs : s ∈ doc.root.sites.tail) (hboundary : s.isBoundary = false) :
    g.openedAt s.address = none := by
  cases hopened : g.openedAt s.address with
  | none => rfl
  | some id =>
    obtain ⟨⟨scope, hscope, haddress⟩, -⟩ := openedAtIn_eq_some hopened
    have hid : g.places[id]? = some scope.place := by rw [getElem?_places, get?, hscope]; rfl
    obtain ⟨htrue, -⟩ := h.eq_place_of_address (List.mem_of_getElem? hid) hs
      (Option.some.inj ((h.map_address_block hscope).symm.trans haddress))
    rw [hboundary] at htrue
    cases htrue

/-- The innermost scope at a site of the tree climbs through the site's chain. -/
theorem Tracks.climbs_innermost (h : Tracks doc sourceType globals doc.root.sites.tail g)
    {s : Site} (hs : Site.Within (Site.root doc.root) s) :
    g.Climbs (g.innermost s.address) (s.chain sourceType) := by
  induction hs with
  | refl =>
    rw [Site.address_root, innermost, h.openedAt_nil, Option.getD_some, Site.chain_root]
    exact h.climbs_rootId
  | @child p s hp hs ih =>
    have hmem := Site.mem_tail_of_mem_children hp hs
    obtain ⟨index, -, haddress⟩ := Site.address_of_mem_children hs
    by_cases hopens : s.opensScope = true
    · obtain ⟨id, hid⟩ := h.located s (List.mem_cons_of_mem _ hmem)
      have hhead : (s.chain sourceType).head? = some s.place := by
        rw [Site.chain_of_mem_children hs, if_pos hopens]
        rfl
      have hopened := h.openedAt_address hmem (hid.getElem?_head hhead)
      rw [haddress] at hopened ⊢
      rw [innermost, hopened, Option.getD_some]
      exact hid
    · have hnone := h.openedAt_eq_none hmem (by
        rw [Site.isBoundary_of_mem_children hs]
        exact Bool.eq_false_iff.mpr hopens)
      rw [haddress] at hnone ⊢
      rw [innermost, hnone, Option.getD_none, Site.chain_of_mem_children hs, if_neg hopens]
      exact ih

/-! ### The scopes that are peeked into -/

/-- The scopes above a scope are those whose places are on its chain. -/
theorem Climbs.mem_lineage_iff {id : Nat} {chain : List Place} (h : g.Climbs id chain)
    (hnodup : g.places.Nodup) {other : Nat} {place : Place}
    (hother : g.places[other]? = some place) : other ∈ g.lineage id ↔ place ∈ chain := by
  constructor
  · intro hmem
    have hsome : some place ∈ chain.map some := by
      rw [← h.map_places, ← hother]
      exact List.mem_map_of_mem (f := fun other ↦ g.places[other]?) hmem
    obtain ⟨found, hfound, heq⟩ := List.mem_map.mp hsome
    exact Option.some.inj heq ▸ hfound
  · intro hmem
    have hsome : some place ∈ (g.lineage id).map fun other ↦ g.places[other]? := by
      rw [h.map_places]
      exact List.mem_map_of_mem hmem
    obtain ⟨found, hfound, heq⟩ := List.mem_map.mp hsome
    exact eq_of_getElem?_eq hnodup heq hother ▸ hfound

theorem place_mem_chain {s e : Site} (sourceType : SourceType) (h : e ∈ s.enclosures) :
    e.place ∈ s.chain sourceType :=
  List.mem_append_left _ (List.mem_map_of_mem h)

theorem rootPlace_mem_chain (s : Site) (sourceType : SourceType) :
    sourceType.rootPlace ∈ s.chain sourceType :=
  List.mem_append_right _ (List.mem_of_head? sourceType.head?_rootPlaces)

/-- The scope of a boundary climbs through the boundary's chain. -/
theorem Tracks.climbs_boundary (h : Tracks doc sourceType globals doc.root.sites.tail g)
    {s : Site} (hs : s ∈ doc.root.sites.tail) (hboundary : s.isBoundary = true) {id : Nat}
    (hid : g.places[id]? = some s.place) : g.Climbs id (s.chain sourceType) := by
  obtain ⟨other, hother⟩ := h.located s (List.mem_cons_of_mem _ hs)
  have hhead : (s.chain sourceType).head? = some s.place := by
    rw [Site.chain, Site.enclosures, List.filter_cons, if_pos hboundary]
    rfl
  rwa [eq_of_getElem?_eq h.nodup_places (hother.getElem?_head hhead) hid] at hother

end ScopeGraph

namespace Site

/-- The first boundary strictly inside a site, in pre-order. -/
def firstInside (s : Site) : Option Site :=
  s.subtree.tail.find? isBoundary

/-- A boundary whose place is on the chain of a site is one of the site's enclosures. -/
theorem mem_enclosures_of_place_mem_chain {root : Node} {s e : Site} {sourceType : SourceType}
    (hs : Within (Site.root root) s) (he : e ∈ root.sites.tail)
    (h : e.place ∈ s.chain sourceType) : e ∈ s.enclosures := by
  rcases List.mem_append.mp h with hmem | hmem
  · obtain ⟨f, hf, heq⟩ := List.mem_map.mp hmem
    have haddress : f.address = e.address := congrArg Place.address heq
    rwa [eq_of_address_eq (mem_sites_iff.mpr (within_of_mem_enclosures hs hf))
      (mem_sites_of_mem_tail he) haddress] at hf
  · exact absurd (SourceType.address_of_mem_rootPlaces hmem)
      (ScopeGraph.address_ne_nil_of_mem_tail he)

/-- The boundaries of a tree are the first one, those inside it, and others. -/
theorem filter_isBoundary_sites {root : Node} {first : Site}
    (h : (Site.root root).firstInside = some first) :
    ∃ rest, root.sites.tail.filter isBoundary =
      first :: (first.subtree.tail.filter isBoundary ++ rest) := by
  rw [firstInside, subtree_root] at h
  have hboundary := List.find?_some h
  have hmem := mem_sites_of_mem_tail (List.mem_of_find?_eq_some h)
  obtain ⟨before, after, hsites⟩ := exists_sites_eq (mem_sites_iff.mp hmem)
  have hroot : root.sites.filter isBoundary = root.sites.tail.filter isBoundary := by
    conv_lhs => rw [sites_eq_cons, List.filter_cons, if_neg (by rw [isBoundary_root]; decide)]
  have hbefore : before.filter isBoundary = [] := by
    cases hfind : before.find? isBoundary with
    | none => simpa using hfind
    | some other =>
      -- The first boundary would stand before its own subtree, against the distinct addresses.
      have hfirst : root.sites.find? isBoundary = some first := by
        rw [← List.head?_filter, hroot, List.head?_filter, h]
      rw [hsites, List.append_assoc, List.find?_append, hfind, Option.some_or] at hfirst
      have hnodup := List.Nodup.of_map _ (nodup_map_address_sites root)
      rw [hsites, List.append_assoc, List.nodup_append] at hnodup
      exact absurd rfl (hnodup.2.2 first (Option.some.inj hfirst ▸ List.mem_of_find?_eq_some hfind)
        first (List.mem_append_left _ (self_mem_subtree first)))
  refine ⟨after.filter isBoundary, ?_⟩
  rw [← hroot, hsites, List.filter_append, List.filter_append, hbefore, List.nil_append,
    subtree_eq, List.filter_cons, if_pos hboundary, List.tail_cons, List.cons_append]

end Site

namespace ScopeGraph

variable {doc : Document} {sourceType : SourceType} {globals : List String} {g : ScopeGraph}

theorem Tracks.getElem?_boundary (h : Tracks doc sourceType globals doc.root.sites.tail g)
    (index : Nat) :
    g.places[rootId sourceType + 1 + index]? =
      (doc.root.sites.tail.filter Site.isBoundary)[index]?.map Site.place := by
  have hlength : rootId sourceType + 1 = sourceType.rootPlaces.reverse.length := by
    cases sourceType <;> rfl
  rw [h.places_eq, hlength, List.getElem?_append_right (Nat.le_add_right _ _),
    Nat.add_sub_cancel_left, List.getElem?_map]

theorem Tracks.getElem?_first (h : Tracks doc sourceType globals doc.root.sites.tail g)
    {first : Site} (hfirst : (Site.root doc.root).firstInside = some first) :
    g.places[rootId sourceType + 1]? = some first.place := by
  obtain ⟨rest, hfilter⟩ := Site.filter_isBoundary_sites hfirst
  have hindex := h.getElem?_boundary 0
  rwa [hfilter] at hindex

theorem Tracks.getElem?_second (h : Tracks doc sourceType globals doc.root.sites.tail g)
    {first second : Site} (hfirst : (Site.root doc.root).firstInside = some first)
    (hsecond : first.firstInside = some second) :
    g.places[rootId sourceType + 2]? = some second.place := by
  obtain ⟨rest, hfilter⟩ := Site.filter_isBoundary_sites hfirst
  obtain ⟨others, hothers⟩ := List.head?_eq_some_iff.mp
    ((List.head?_filter (p := Site.isBoundary)).trans hsecond)
  have hindex := h.getElem?_boundary 1
  rwa [hfilter, hothers] at hindex

/-- Below the scope of the root, every child is the scope of a boundary. -/
theorem Tracks.exists_boundary_of_mem_children
    (h : Tracks doc sourceType globals doc.root.sites.tail g) {id child : Nat}
    (hid : rootId sourceType ≤ id) (hchild : child ∈ g.children id) :
    ∃ s ∈ doc.root.sites.tail, s.isBoundary = true ∧ g.places[child]? = some s.place := by
  rw [mem_children_iff] at hchild
  have hlt := h.ranked.lt_of_parent? hchild
  obtain ⟨scope, hscope, -⟩ := Option.bind_eq_some_iff.mp hchild
  have hplace : g.places[child]? = some scope.place := by rw [getElem?_places, hscope]; rfl
  have hindex := h.getElem?_boundary (child - (rootId sourceType + 1))
  rw [Nat.add_sub_cancel' (by omega), hplace] at hindex
  obtain ⟨s, hs, heq⟩ := Option.map_eq_some_iff.mp hindex.symm
  obtain ⟨hmem, hboundary⟩ := List.mem_filter.mp (List.mem_of_getElem? hs)
  exact ⟨s, hmem, hboundary, by rw [hplace, heq]⟩

/-- The scope of the first boundary below the root is the first child of the root's scope. -/
theorem Tracks.head?_children_root (h : Tracks doc sourceType globals doc.root.sites.tail g) :
    (g.children (rootId sourceType)).head? =
      (Site.root doc.root).firstInside.map fun _ ↦ rootId sourceType + 1 := by
  cases hfirst : (Site.root doc.root).firstInside with
  | none =>
    rw [Option.map_none, List.head?_eq_none_iff, List.eq_nil_iff_forall_not_mem]
    intro child hchild
    obtain ⟨s, hs, hboundary, -⟩ := h.exists_boundary_of_mem_children (Nat.le_refl _) hchild
    exact List.find?_eq_none.mp hfirst s hs hboundary
  | some first =>
    have hclimbs := h.climbs_boundary (List.mem_of_find?_eq_some hfirst) (List.find?_some hfirst)
      (h.getElem?_first hfirst)
    refine h.ranked.head?_children ?_
    exact (hclimbs.mem_lineage_iff h.nodup_places h.getElem?_rootId).mpr
      (rootPlace_mem_chain first sourceType)

/-- The scope of the first boundary inside the first boundary is the first child of its scope. -/
theorem Tracks.head?_children_first (h : Tracks doc sourceType globals doc.root.sites.tail g)
    {first : Site} (hfirst : (Site.root doc.root).firstInside = some first) :
    (g.children (rootId sourceType + 1)).head? =
      first.firstInside.map fun _ ↦ rootId sourceType + 2 := by
  have hmem : first ∈ doc.root.sites.tail := List.mem_of_find?_eq_some hfirst
  have hid := h.getElem?_first hfirst
  cases hsecond : first.firstInside with
  | none =>
    rw [Option.map_none, List.head?_eq_none_iff, List.eq_nil_iff_forall_not_mem]
    intro child hchild
    obtain ⟨s, hs, hboundary, hplace⟩ := h.exists_boundary_of_mem_children (Nat.le_succ _) hchild
    rw [mem_children_iff] at hchild
    have hclimbs := h.climbs_boundary hs hboundary hplace
    have hchain := (hclimbs.mem_lineage_iff h.nodup_places hid).mp
      (h.ranked.mem_lineage_of_parent? hchild)
    have hwithin := Site.mem_sites_iff.mp (Site.mem_sites_of_mem_tail hs)
    rcases List.mem_cons.mp (List.mem_filter.mp
      (Site.mem_enclosures_of_place_mem_chain hwithin hmem hchain)).1 with rfl | hancestor
    · have heq := eq_of_getElem?_eq h.nodup_places hid hplace
      have hlt := h.ranked.lt_of_parent? hchild
      omega
    · exact List.find?_eq_none.mp hsecond s ((Site.mem_tail_subtree_iff hwithin).mpr hancestor)
        hboundary
  | some second =>
    have hfound : second ∈ first.subtree.tail := List.mem_of_find?_eq_some hsecond
    have hs := Site.mem_tail_of_mem_tail_subtree (Site.mem_sites_of_mem_tail hmem) hfound
    have hwithin := Site.mem_sites_iff.mp (Site.mem_sites_of_mem_tail hs)
    have henclosure : first ∈ second.enclosures :=
      List.mem_filter.mpr ⟨List.mem_cons_of_mem _ ((Site.mem_tail_subtree_iff hwithin).mp hfound),
        List.find?_some hfirst⟩
    refine h.ranked.head?_children ?_
    exact ((h.climbs_boundary hs (List.find?_some hsecond)
      (h.getElem?_second hfirst hsecond)).mem_lineage_iff h.nodup_places hid).mpr
      (place_mem_chain sourceType henclosure)

/-! ### The upward search -/

theorem upToFirst_append {stop : Nat → Bool} {inner : List Nat} (rest : List Nat)
    (h : ∀ id ∈ inner, stop id = false) :
    upToFirst stop (inner ++ rest) = inner ++ upToFirst stop rest := by
  induction inner with
  | nil => rfl
  | cons id inner ih =>
    rw [List.cons_append, upToFirst, if_neg (by rw [h id List.mem_cons_self]; decide),
      ih fun other hother ↦ h other (List.mem_cons_of_mem _ hother), List.cons_append]

theorem stopsAt_eq (bound : ScopeKind) {id : Nat} {place : Place}
    (h : g.places[id]? = some place) :
    g.stopsAt bound id = (decide (place.kind = bound) || decide (place.kind = .global)) := by
  rw [stopsAt, kind?_eq, h]
  rfl

/-- The numbers of the scopes of the root, innermost first. -/
def rootIds : SourceType → List Nat
  | .module => [1, 0]
  | .script => [0]

/-- The places of the scopes of the root up to the bound of the search. -/
def reachedPlaces (sourceType : SourceType) (allowGlobals : Bool) : List Place :=
  if sourceType = .module && !allowGlobals then [sourceType.rootPlace] else sourceType.rootPlaces

theorem Tracks.map_places_rootIds (h : Tracks doc sourceType globals doc.root.sites.tail g) :
    (rootIds sourceType).map (fun id ↦ g.places[id]?) = sourceType.rootPlaces.map some := by
  have hzero := h.getElem?_zero
  have hroot := h.getElem?_rootId
  cases sourceType with
  | module => exact congrArg₂ (fun a b ↦ [a, b]) hroot hzero
  | script => exact congrArg (fun a ↦ [a]) hzero

theorem eq_of_map_getElem?_eq {places : List Place} (hnodup : places.Nodup) (chain : List Place) :
    ∀ {ids others : List Nat}, ids.map (fun id ↦ places[id]?) = chain.map some →
      others.map (fun id ↦ places[id]?) = chain.map some → ids = others := by
  induction chain with
  | nil =>
    intro ids others hids hothers
    rw [List.map_eq_nil_iff.mp hids, List.map_eq_nil_iff.mp hothers]
  | cons place chain ih =>
    intro ids others hids hothers
    obtain ⟨id, ids, rfl, hid, hids⟩ := List.map_eq_cons_iff.mp hids
    obtain ⟨other, others, rfl, hother, hothers⟩ := List.map_eq_cons_iff.mp hothers
    rw [eq_of_getElem?_eq hnodup hid hother, ih hids hothers]

/-- The search from a scope whose chain is that of a site passes the site's enclosures and ends
among the scopes of the root. -/
theorem Tracks.exists_climb_eq (h : Tracks doc sourceType globals doc.root.sites.tail g)
    {s : Site} {id : Nat} (hid : g.Climbs id (s.chain sourceType)) (allowGlobals : Bool) :
    ∃ inner, g.climb id (searchBound sourceType allowGlobals) = inner ++
        upToFirst (g.stopsAt (searchBound sourceType allowGlobals)) (rootIds sourceType) ∧
      inner.map (fun other ↦ g.places[other]?) = (s.enclosures.map Site.place).map some := by
  have hmap := hid.map_places
  rw [Site.chain, List.map_append] at hmap
  obtain ⟨inner, outer, hlineage, hinner, houter⟩ := List.map_eq_append_iff.mp hmap
  rw [eq_of_map_getElem?_eq h.nodup_places _ houter h.map_places_rootIds] at hlineage
  refine ⟨inner, ?_, hinner⟩
  rw [climb, hlineage]
  refine upToFirst_append _ fun other hother ↦ ?_
  have hmem : g.places[other]? ∈ (s.enclosures.map Site.place).map some :=
    hinner ▸ List.mem_map_of_mem (f := fun other ↦ g.places[other]?) hother
  obtain ⟨place, hplace, heq⟩ := List.mem_map.mp hmem
  obtain ⟨e, -, rfl⟩ := List.mem_map.mp hplace
  rw [stopsAt_eq _ heq.symm, Bool.or_eq_false_iff, decide_eq_false_iff_not,
    decide_eq_false_iff_not]
  refine ⟨?_, e.scopeKind_ne.2⟩
  unfold searchBound
  split_ifs
  · exact e.scopeKind_ne.1
  · exact e.scopeKind_ne.2

/-- The number of the scope at which every search ends. -/
def apex (sourceType : SourceType) (allowGlobals : Bool) : Nat :=
  if sourceType = .module && !allowGlobals then 1 else 0

theorem Tracks.upToFirst_rootIds (h : Tracks doc sourceType globals doc.root.sites.tail g)
    (allowGlobals : Bool) :
    (upToFirst (g.stopsAt (searchBound sourceType allowGlobals)) (rootIds sourceType)).map
        (fun id ↦ g.places[id]?) = (reachedPlaces sourceType allowGlobals).map some ∧
      (upToFirst (g.stopsAt (searchBound sourceType allowGlobals)) (rootIds sourceType)).getLast? =
        some (apex sourceType allowGlobals) := by
  have hzero := h.getElem?_zero
  have hroot := h.getElem?_rootId
  cases sourceType with
  | script =>
    have hstops : g.stopsAt (searchBound .script allowGlobals) 0 = true := by
      rw [stopsAt_eq _ hzero]
      simp
    rw [rootIds, upToFirst, if_pos hstops]
    exact ⟨congrArg (fun a ↦ [a]) hzero, rfl⟩
  | module =>
    cases allowGlobals with
    | false =>
      have hstops : g.stopsAt (searchBound .module false) 1 = true := stopsAt_eq _ hroot
      rw [rootIds, upToFirst, if_pos hstops]
      exact ⟨congrArg (fun a ↦ [a]) hroot, rfl⟩
    | true =>
      have hpasses : g.stopsAt (searchBound .module true) 1 = false := stopsAt_eq _ hroot
      have hstops : g.stopsAt (searchBound .module true) 0 = true := stopsAt_eq _ hzero
      rw [rootIds, upToFirst, if_neg (by rw [hpasses]; decide), upToFirst, if_pos hstops]
      exact ⟨congrArg₂ (fun a b ↦ [a, b]) hroot hzero, rfl⟩

end ScopeGraph

namespace Document

/-- The boundaries whose scopes a search looks into from above: the first one below the root and
the first one inside it. Where the search has left the module scope for the global one, the module
scope stands in the place of the first. -/
def peekedSites (doc : Document) (sourceType : SourceType) (allowGlobals : Bool) : List Site :=
  match (Site.root doc.root).firstInside with
  | none => []
  | some first =>
    if sourceType = .module && allowGlobals then [first] else first :: first.firstInside.toList

/-- Whether some site of a tree declares a name in the scope at a place. -/
def Binds (doc : Document) (sourceType : SourceType) (place : Place) (name : String) : Prop :=
  ∃ s ∈ doc.root.sites.tail, ∃ d ∈ s.declarations,
    d.destination.place? (s.chain sourceType) = some place ∧
      doc.nameOf d.identifier.node = name ∧ name ≠ ""

instance (doc : Document) (sourceType : SourceType) (place : Place) (name : String) :
    Decidable (doc.Binds sourceType place name) :=
  inferInstanceAs (Decidable (∃ s ∈ doc.root.sites.tail, ∃ d ∈ s.declarations, _))

/-- Whether a name is bound in sight of a site: it is `this`, or bound in a scope around the site,
in the scope of the root, by the ambient names where these are in reach, or in a scope that the
search looks into from above. -/
def InSight (doc : Document) (sourceType : SourceType) (globals : List String)
    (allowGlobals : Bool) (s : Site) (name : String) : Prop :=
  name = "this" ∨
  (∃ e ∈ s.enclosures, doc.Binds sourceType e.place name) ∨
  doc.Binds sourceType sourceType.rootPlace name ∨
  ((sourceType ≠ .module ∨ allowGlobals = true) ∧ name ∈ globals) ∨
  (∃ e ∈ doc.peekedSites sourceType allowGlobals, doc.Binds sourceType e.place name)

instance (doc : Document) (sourceType : SourceType) (globals : List String) (allowGlobals : Bool)
    (s : Site) (name : String) :
    Decidable (doc.InSight sourceType globals allowGlobals s name) :=
  inferInstanceAs (Decidable (_ ∨ _))

/-- In a module, no name is bound at the place of the global scope. -/
theorem not_binds_global (doc : Document) (name : String) :
    ¬ doc.Binds .module ⟨.global, []⟩ name := by
  rintro ⟨s, hs, d, hd, hdestination, -⟩
  obtain ⟨p, -, hchild⟩ := Site.exists_parent_of_mem_tail hs
  exact ScopeGraph.place?_ne_global hchild hd hdestination

end Document

namespace ScopeGraph

variable {doc : Document} {sourceType : SourceType} {globals : List String} {g : ScopeGraph}

theorem Tracks.map_places_peeked_rootId (h : Tracks doc sourceType globals doc.root.sites.tail g) :
    (g.peeked (rootId sourceType)).map (fun id ↦ g.places[id]?) =
      ((doc.peekedSites sourceType false).map Site.place).map some := by
  rw [peeked, h.head?_children_root, Document.peekedSites]
  cases hfirst : (Site.root doc.root).firstInside with
  | none => rfl
  | some first =>
    rw [Option.map_some]
    dsimp only
    rw [h.head?_children_first hfirst, Bool.and_false, if_neg Bool.false_ne_true]
    rw [List.map_cons, h.getElem?_first hfirst]
    cases hsecond : first.firstInside with
    | none => rfl
    | some second =>
      exact congrArg (fun other ↦ [some first.place, other]) (h.getElem?_second hfirst hsecond)

theorem Tracks.map_places_peeked_zero (h : Tracks doc .module globals doc.root.sites.tail g) :
    (g.peeked 0).map (fun id ↦ g.places[id]?) =
      (SourceType.module.rootPlace :: (doc.peekedSites .module true).map Site.place).map some := by
  have hchild : (g.children 0).head? = some 1 := h.ranked.head?_children
    ((h.climbs_rootId.mem_lineage_iff h.nodup_places h.getElem?_zero).mpr (by decide))
  have hgrandchild := h.head?_children_root
  rw [peeked, hchild]
  dsimp only
  rw [show (1 : Nat) = rootId .module from rfl, hgrandchild, List.map_cons, h.getElem?_rootId,
    Document.peekedSites]
  cases hfirst : (Site.root doc.root).firstInside with
  | none => rfl
  | some first =>
    exact congrArg (fun other ↦ [some SourceType.module.rootPlace, other])
      (h.getElem?_first hfirst)

/-- The places of the scopes that are visible from a site, nearest first. -/
def visiblePlaces (doc : Document) (sourceType : SourceType) (allowGlobals : Bool) (s : Site) :
    List Place :=
  s.enclosures.map Site.place ++ reachedPlaces sourceType allowGlobals ++
    ((if sourceType = .module && allowGlobals then [sourceType.rootPlace] else []) ++
      (doc.peekedSites sourceType allowGlobals).map Site.place)

/-- The scopes that are visible from the innermost scope at a site. -/
theorem Tracks.map_places_visibleScopes (h : Tracks doc sourceType globals doc.root.sites.tail g)
    {s : Site} (hs : Site.Within (Site.root doc.root) s) (allowGlobals : Bool) :
    (g.visibleScopes (g.innermost s.address) (searchBound sourceType allowGlobals)).map
        (fun id ↦ g.places[id]?) =
      (visiblePlaces doc sourceType allowGlobals s).map some := by
  obtain ⟨inner, hclimb, hinner⟩ := h.exists_climb_eq (h.climbs_innermost hs) allowGlobals
  obtain ⟨hreached, hlast⟩ := h.upToFirst_rootIds allowGlobals
  have hpeeked : (g.peeked (apex sourceType allowGlobals)).map (fun id ↦ g.places[id]?) =
      ((if sourceType = .module && allowGlobals then [sourceType.rootPlace] else []) ++
        (doc.peekedSites sourceType allowGlobals).map Site.place).map some := by
    cases sourceType with
    | script => cases allowGlobals <;> exact h.map_places_peeked_rootId
    | module =>
      cases allowGlobals with
      | false => exact h.map_places_peeked_rootId
      | true => exact h.map_places_peeked_zero
  rw [visibleScopes, hclimb, List.getLast?_append, hlast, Option.some_or, Option.elim_some,
    List.map_append, List.map_append, hinner, hreached, hpeeked, visiblePlaces]
  simp only [List.map_append]

/-- The scope that holds what is declared at the top level is visible from every site. -/
theorem Tracks.rootId_mem_visibleScopes (h : Tracks doc sourceType globals doc.root.sites.tail g)
    {s : Site} (hs : Site.Within (Site.root doc.root) s) (allowGlobals : Bool) :
    rootId sourceType ∈
      g.visibleScopes (g.innermost s.address) (searchBound sourceType allowGlobals) := by
  have hreached : sourceType.rootPlace ∈ reachedPlaces sourceType allowGlobals := by
    cases sourceType <;> cases allowGlobals <;> decide
  have hmem : some sourceType.rootPlace ∈
      (visiblePlaces doc sourceType allowGlobals s).map some :=
    List.mem_map_of_mem (List.mem_append_left _ (List.mem_append_right _ hreached))
  rw [← h.map_places_visibleScopes hs allowGlobals] at hmem
  obtain ⟨id, hid, hplace⟩ := List.mem_map.mp hmem
  rwa [eq_of_getElem?_eq h.nodup_places hplace h.getElem?_rootId] at hid

/-! ### Names in sight -/

/-- The names of a scope are the ambient ones, if it is global, and those that sites bind at its
place. -/
theorem Tracks.mem_names_iff (h : Tracks doc sourceType globals doc.root.sites.tail g) {id : Nat}
    {place : Place} (hid : g.places[id]? = some place) {name : String} :
    name ∈ g.names id ↔ (place.kind = .global ∧ name ∈ globals ∧ name ≠ "") ∨
      doc.Binds sourceType place name := by
  obtain ⟨scope, hscope, hplace⟩ := exists_get?_of_place hid
  have hambient : name ∈ (ambient globals place).map Binding.name ↔
      place.kind = .global ∧ name ∈ globals ∧ name ≠ "" := by
    unfold ambient
    split_ifs with hkind
    · simp [hkind]
    · simp [hkind]
  rw [names, bindings_of_get? hscope, h.bindings_eq id scope hscope, hplace, List.map_append,
    List.mem_append, hambient]
  refine or_congr_right ?_
  simp only [List.mem_map, List.mem_flatMap, mem_contributions, Document.Binds]
  constructor
  · rintro ⟨binding, ⟨s, hs, d, hd, hdestination, hname, rfl⟩, rfl⟩
    exact ⟨s, hs, d, hd, hdestination, rfl, hname⟩
  · rintro ⟨s, hs, d, hd, hdestination, rfl, hname⟩
    exact ⟨_, ⟨s, hs, d, hd, hdestination, hname, rfl⟩, rfl⟩

theorem resolves_iff (g : ScopeGraph) (name : String) (id : Nat) (bound : ScopeKind) :
    g.resolves name id bound = true ↔
      name = "this" ∨ ∃ other ∈ g.visibleScopes id bound, name ∈ g.names other := by
  simp only [resolves, visible, Bool.or_eq_true, decide_eq_true_eq, List.any_eq_true,
    List.mem_flatMap, names, List.mem_map]
  refine or_congr_right ⟨?_, ?_⟩
  · rintro ⟨binding, ⟨other, hother, hbinding⟩, rfl⟩
    exact ⟨other, hother, binding, hbinding, rfl⟩
  · rintro ⟨other, hother, binding, hbinding, rfl⟩
    exact ⟨binding, ⟨other, hother, hbinding⟩, rfl⟩

/-- A name resolves at a site when it is bound at a place that is visible from there. -/
theorem Tracks.resolves_innermost_iff (h : Tracks doc sourceType globals doc.root.sites.tail g)
    {s : Site} (hs : Site.Within (Site.root doc.root) s) (allowGlobals : Bool) (name : String) :
    g.resolves name (g.innermost s.address) (searchBound sourceType allowGlobals) = true ↔
      name = "this" ∨ ∃ place ∈ visiblePlaces doc sourceType allowGlobals s,
        (place.kind = .global ∧ name ∈ globals ∧ name ≠ "") ∨ doc.Binds sourceType place name := by
  have hmap := h.map_places_visibleScopes hs allowGlobals
  rw [resolves_iff]
  refine or_congr_right ⟨?_, ?_⟩
  · rintro ⟨id, hid, hname⟩
    have hmem : g.places[id]? ∈ (visiblePlaces doc sourceType allowGlobals s).map some :=
      hmap ▸ List.mem_map_of_mem (f := fun id ↦ g.places[id]?) hid
    obtain ⟨place, hplace, heq⟩ := List.mem_map.mp hmem
    exact ⟨place, hplace, (h.mem_names_iff heq.symm).mp hname⟩
  · rintro ⟨place, hplace, hbinds⟩
    have hmem := List.mem_map_of_mem (f := some) hplace
    rw [← hmap] at hmem
    obtain ⟨id, hid, heq⟩ := List.mem_map.mp hmem
    exact ⟨id, hid, (h.mem_names_iff heq).mpr hbinds⟩

theorem exists_reachedPlaces_iff (hglobals : ∀ name ∈ globals, name ≠ "") (allowGlobals : Bool)
    (name : String) :
    (∃ place ∈ reachedPlaces sourceType allowGlobals,
      (place.kind = .global ∧ name ∈ globals ∧ name ≠ "") ∨ doc.Binds sourceType place name) ↔
      doc.Binds sourceType sourceType.rootPlace name ∨
        (sourceType ≠ .module ∨ allowGlobals = true) ∧ name ∈ globals := by
  have hambient : (name ∈ globals ∧ name ≠ "") ↔ name ∈ globals :=
    and_iff_left_of_imp (hglobals name)
  have hglobal := doc.not_binds_global name
  cases sourceType with
  | script => simp [reachedPlaces, SourceType.rootPlaces, SourceType.rootPlace, hambient, or_comm]
  | module =>
    cases allowGlobals <;>
      simp [reachedPlaces, SourceType.rootPlaces, SourceType.rootPlace, hambient, hglobal]

/-- The names that resolve at a site are those in sight of it on the tree. -/
theorem Tracks.resolves_innermost_iff_inSight
    (h : Tracks doc sourceType globals doc.root.sites.tail g)
    (hglobals : ∀ name ∈ globals, name ≠ "") {s : Site}
    (hs : Site.Within (Site.root doc.root) s) (allowGlobals : Bool) (name : String) :
    g.resolves name (g.innermost s.address) (searchBound sourceType allowGlobals) = true ↔
      doc.InSight sourceType globals allowGlobals s name := by
  rw [h.resolves_innermost_iff hs, Document.InSight]
  refine or_congr_right ?_
  have hboundary : ∀ e : Site, ((e.place.kind = .global ∧ name ∈ globals ∧ name ≠ "") ∨
      doc.Binds sourceType e.place name) ↔ doc.Binds sourceType e.place name := fun e ↦
    or_iff_right fun hglobal ↦ e.scopeKind_ne.2 hglobal.1
  -- A search that leaves the module scope looks into that scope a second time from above.
  have hagain : (∃ place ∈ (if sourceType = .module && allowGlobals then [sourceType.rootPlace]
      else []), (place.kind = .global ∧ name ∈ globals ∧ name ≠ "") ∨
        doc.Binds sourceType place name) → doc.Binds sourceType sourceType.rootPlace name := by
    rintro ⟨place, hplace, hname⟩
    split_ifs at hplace with hmodule
    · obtain ⟨hsource, -⟩ : sourceType = .module ∧ allowGlobals = true := by simpa using hmodule
      rw [List.mem_singleton.mp hplace] at hname
      subst hsource
      exact hname.resolve_left fun hkind ↦ absurd hkind.1 (by decide)
    · simp at hplace
  simp only [visiblePlaces, List.mem_append, or_and_right, exists_or, List.mem_map,
    exists_exists_and_eq_and, hboundary, exists_reachedPlaces_iff hglobals]
  constructor
  · rintro ((henclosing | hroot | hambient) | hroot | hpeeked)
    · exact Or.inl henclosing
    · exact Or.inr (Or.inl hroot)
    · exact Or.inr (Or.inr (Or.inl hambient))
    · exact Or.inr (Or.inl (hagain hroot))
    · exact Or.inr (Or.inr (Or.inr hpeeked))
  · rintro (henclosing | hroot | hambient | hpeeked)
    · exact Or.inl (Or.inl henclosing)
    · exact Or.inl (Or.inr (Or.inl hroot))
    · exact Or.inl (Or.inr (Or.inr hambient))
    · exact Or.inr (Or.inr hpeeked)

end ScopeGraph

end TagScope
