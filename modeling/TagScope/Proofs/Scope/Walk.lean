import TagScope.Proofs.Scope.Trace
import TagScope.Proofs.Scope.Visibility

/-!
# Walking a trace

A trace is all that the analysis needs. A walk grows a graph along a trace and notes with each use
of a name the scope it stands in (`Walk.step`). Walked along the trace of a document it arrives at
the graph of the document up to the origins of scopes and names (`Document.mirrors_walk`), and the
scopes it notes are those innermost at the candidates (`Document.met_walk`).

Graphs are compared by `Gains`: the same scopes in the same order, and in each the same names apart
from some extra ones. What is visible from a scope depends on kinds and parents only, so where a
graph gains names, names resolve that did before or that are gained in a visible scope
(`Gains.resolves_iff`).
-/

set_option autoImplicit false

namespace TagScope

namespace ScopeGraph

/-! ### Shapes -/

/-- Two graphs have scopes of the same kinds with the same parents, in the same order. -/
structure SameShape (g g' : ScopeGraph) : Prop where
  kinds : g'.newestFirst.map Scope.kind = g.newestFirst.map Scope.kind
  parents : g'.newestFirst.map Scope.parent = g.newestFirst.map Scope.parent

theorem map_getIn_eq {β : Type} (f : Scope → β) {l : List Scope} :
    ∀ {l' : List Scope}, l.map f = l'.map f → ∀ id, (getIn l id).map f = (getIn l' id).map f := by
  induction l with
  | nil =>
    intro l' h id
    rw [List.map_eq_nil_iff.mp h.symm]
  | cons scope older ih =>
    intro l' h id
    obtain ⟨scope', older', rfl, hscope, holder⟩ := List.map_eq_cons_iff.mp h.symm
    have hlength : older'.length = older.length := by simpa using congrArg List.length holder
    rw [getIn, getIn, hlength]
    split_ifs
    · rw [Option.map_some, Option.map_some, hscope]
    · exact ih holder.symm id

section Shape

variable {g g' : ScopeGraph} (h : SameShape g g')
include h

theorem SameShape.size_eq : g'.size = g.size := by
  have hlength := congrArg List.length h.kinds
  rwa [List.length_map, List.length_map] at hlength

theorem SameShape.kind?_eq (id : Nat) : g'.kind? id = g.kind? id :=
  map_getIn_eq Scope.kind h.kinds id

theorem SameShape.parent?_eq (id : Nat) : g'.parent? id = g.parent? id := by
  have hget := congrArg (Option.bind · fun parent ↦ parent) (map_getIn_eq Scope.parent h.parents id)
  rwa [Option.bind_map, Option.bind_map] at hget

theorem SameShape.lineage_eq (id : Nat) : g'.lineage id = g.lineage id :=
  lineageIn_congr h.parents id

theorem SameShape.children_eq (id : Nat) : g'.children id = g.children id := by
  simp only [children_eq_filter, h.size_eq, h.parent?_eq]

theorem SameShape.destination_eq (current : Nat) (destination : Destination) :
    g'.destination current destination = g.destination current destination := by
  cases destination <;>
    simp only [ScopeGraph.destination, h.parent?_eq, h.lineage_eq,
      h.kind?_eq]

theorem SameShape.visibleScopes_eq (id : Nat) (bound : ScopeKind) :
    g'.visibleScopes id bound = g.visibleScopes id bound := by
  have hstops : g'.stopsAt bound = g.stopsAt bound := by
    funext other
    rw [stopsAt, h.kind?_eq, stopsAt]
  have hpeeked : g'.peeked = g.peeked := by
    funext other
    simp only [peeked, h.children_eq]
  simp only [visibleScopes, climb, hstops, h.lineage_eq, hpeeked]

end Shape

/-! ### Names -/

theorem bindings_openScope (g : ScopeGraph) (kind : ScopeKind) (parent : Option Nat)
    (block : Option Site) (id : Nat) :
    (g.openScope kind parent block).bindings id = g.bindings id := by
  unfold bindings
  rcases Nat.lt_trichotomy id g.size with hlt | rfl | hgt
  · rw [get?_openScope_of_lt hlt]
  · rw [get?_openScope_self, get?, getIn_eq_none (l := g.newestFirst) (Nat.le_refl g.size)]
    rfl
  · rw [get?, get?, getIn_eq_none hgt, getIn_eq_none (Nat.le_of_lt hgt)]

theorem names_openScope (g : ScopeGraph) (kind : ScopeKind) (parent : Option Nat)
    (block : Option Site) (id : Nat) : (g.openScope kind parent block).names id = g.names id :=
  congrArg (List.map Binding.name) (bindings_openScope g kind parent block id)

theorem mem_names_bind (g : ScopeGraph) (target : Nat) (binding : Binding) (id : Nat)
    (name : String) :
    name ∈ (g.bind target binding).names id ↔
      name ∈ g.names id ∨ id = target ∧ id < g.size ∧ name = binding.name ∧ name ≠ "" := by
  by_cases hname : binding.name = ""
  · rw [bind_of_name_eq_empty g target hname, hname]
    refine (or_iff_left ?_).symm
    rintro ⟨-, -, hempty, hne⟩
    exact hne hempty
  · unfold names bindings
    rw [get?_bind g target id hname]
    cases hget : g.get? id with
    | none =>
      have hnot : ¬ id < g.size := fun hlt ↦ by
        obtain ⟨scope, hscope⟩ := exists_get?_of_lt hlt
        cases hget.symm.trans hscope
      simp [hnot]
    | some scope =>
      have hlt := lt_size_of_get? hget
      rw [Option.map_some, Option.elim_some, Option.elim_some]
      split_ifs with heq
      · rw [List.map_append, List.mem_append, List.map_singleton, List.mem_singleton]
        refine or_congr_right ⟨fun h ↦ ⟨heq, hlt, h, h ▸ hname⟩, fun h ↦ h.2.2.1⟩
      · simp [heq]

/-! ### Graphs that gain names -/

/-- A graph with the same scopes and the same names as another, apart from some extra names. -/
structure Gains (extra : Nat → String → Prop) (g g' : ScopeGraph) : Prop where
  shape : SameShape g g'
  mem_names_iff : ∀ id name, name ∈ g'.names id ↔ name ∈ g.names id ∨ extra id name

/-- Two graphs with the same scopes and the same names. -/
abbrev Mirrors (g g' : ScopeGraph) : Prop := Gains (fun _ _ ↦ False) g g'

variable {extra : Nat → String → Prop} {g g' : ScopeGraph}

theorem Gains.openScope (h : Gains extra g g') (kind : ScopeKind) (parent : Option Nat)
    (block block' : Option Site) :
    Gains extra (g.openScope kind parent block) (g'.openScope kind parent block') where
  shape := ⟨congrArg (List.cons kind) h.shape.kinds, congrArg (List.cons parent) h.shape.parents⟩
  mem_names_iff id name := by
    rw [names_openScope, names_openScope]
    exact h.mem_names_iff id name

theorem sameShape_bind (g : ScopeGraph) (target : Nat) (binding : Binding) :
    SameShape g (g.bind target binding) := by
  unfold bind
  split_ifs
  · exact ⟨rfl, rfl⟩
  · exact ⟨map_bindIn (fun _ _ ↦ rfl) binding _ target,
      map_bindIn (fun _ _ ↦ rfl) binding _ target⟩

theorem Gains.bind (h : Gains extra g g') (target : Nat) {binding binding' : Binding}
    (hname : binding'.name = binding.name) :
    Gains extra (g.bind target binding) (g'.bind target binding') where
  shape := by
    have hg := sameShape_bind g target binding
    have hg' := sameShape_bind g' target binding'
    exact ⟨hg'.kinds.trans (h.shape.kinds.trans hg.kinds.symm),
      hg'.parents.trans (h.shape.parents.trans hg.parents.symm)⟩
  mem_names_iff id name := by
    rw [mem_names_bind, mem_names_bind, h.mem_names_iff, h.shape.size_eq, hname]
    exact or_right_comm

theorem Gains.trans {extra' : Nat → String → Prop} {g'' : ScopeGraph} (h : Gains extra g g')
    (h' : Gains extra' g' g'') : Gains (fun id name ↦ extra id name ∨ extra' id name) g g'' where
  shape := ⟨h'.shape.kinds.trans h.shape.kinds, h'.shape.parents.trans h.shape.parents⟩
  mem_names_iff id name := by rw [h'.mem_names_iff, h.mem_names_iff, or_assoc]

theorem Gains.congr {extra' : Nat → String → Prop} (h : Gains extra g g')
    (heq : ∀ id name, extra id name ↔ extra' id name) : Gains extra' g g' where
  shape := h.shape
  mem_names_iff id name := by rw [h.mem_names_iff, heq]

/-- A name resolves after a gain if it did before or is gained in a visible scope. -/
theorem Gains.resolves_iff (h : Gains extra g g') (name : String) (id : Nat) (bound : ScopeKind) :
    g'.resolves name id bound = true ↔ g.resolves name id bound = true ∨
      ∃ other ∈ g.visibleScopes id bound, extra other name := by
  rw [ScopeGraph.resolves_iff, ScopeGraph.resolves_iff, h.shape.visibleScopes_eq, or_assoc]
  refine or_congr_right ?_
  simp only [h.mem_names_iff, and_or_left, exists_or]

end ScopeGraph

/-! ### Walks -/

/-- A use of a name in JSX, with the scope it stands in. -/
structure Use where
  name : String
  role : Jsx.Role
  scope : Nat
deriving DecidableEq, Repr

/-- The scopes that are open, innermost first, the graph so far, and the uses met. -/
structure Walk where
  stack : List Nat
  graph : ScopeGraph
  met : List Use
deriving Repr

namespace Walk

def current (w : Walk) : Nat := w.stack.headD 0

def step (w : Walk) : Event → Walk
  | .opens kind =>
    { w with
      stack := w.graph.size :: w.stack
      graph := w.graph.openScope kind (some w.current) none }
  | .closes => { w with stack := w.stack.tail }
  | .declares destination name =>
    { w with
      graph := w.graph.bind (w.graph.destination w.current destination) ⟨name, "", none⟩ }
  | .uses name role => { w with met := w.met ++ [⟨name, role, w.current⟩] }

def run (w : Walk) (events : List Event) : Walk := events.foldl step w

theorem run_append (w : Walk) (events more : List Event) :
    w.run (events ++ more) = (w.run events).run more :=
  List.foldl_append

theorem run_uses (cs : List Jsx.Candidate) :
    ∀ w : Walk, w.run (cs.map fun c ↦ .uses c.name c.role) =
      { w with met := w.met ++ cs.map fun c ↦ ⟨c.name, c.role, w.current⟩ } := by
  induction cs with
  | nil => intro w; simp [run]
  | cons c rest ih =>
    intro w
    rw [List.map_cons, run, List.foldl_cons, ← run, ih, List.map_cons, List.append_cons w.met]
    rfl

/-- A walk has come as far as a graph, in whose scope with a given number it stands. -/
structure At (w : Walk) (current : Nat) (g : ScopeGraph) : Prop where
  head?_stack : w.stack.head? = some current
  mirrors : g.Mirrors w.graph

theorem At.current_eq {w : Walk} {current : Nat} {g : ScopeGraph} (h : w.At current g) :
    w.current = current := by
  rw [Walk.current, List.headD_eq_head?_getD, h.head?_stack, Option.getD_some]

/-- A walk has gone on along the sites of a list: it has reached a graph with the same scopes open
as before, and has noted the candidates of the sites with scopes that have their chains. -/
structure Follows (doc : Document) (sourceType : SourceType) (sites : List Site)
    (g : ScopeGraph) (before after : Walk) : Prop where
  stack_eq : after.stack = before.stack
  mirrors : g.Mirrors after.graph
  met : ∃ more, after.met = before.met ++ more ∧
    List.Forall₂ (fun (c : Jsx.Candidate) (u : Use) ↦ u.name = c.name ∧ u.role = c.role ∧
      g.Climbs u.scope (c.site.chain sourceType)) (sites.flatMap (Jsx.candidatesAt doc)) more

variable {doc : Document} {sourceType : SourceType}

theorem Follows.append {sites rest : List Site} {g g' : ScopeGraph} {first second third : Walk}
    (h : Follows doc sourceType sites g first second)
    (h' : Follows doc sourceType rest g' second third)
    (hclimbs : ∀ id chain, g.Climbs id chain → g'.Climbs id chain) :
    Follows doc sourceType (sites ++ rest) g' first third where
  stack_eq := h'.stack_eq.trans h.stack_eq
  mirrors := h'.mirrors
  met := by
    obtain ⟨more, hmet, hmore⟩ := h.met
    obtain ⟨more', hmet', hmore'⟩ := h'.met
    refine ⟨more ++ more', by rw [hmet', hmet, List.append_assoc], ?_⟩
    rw [List.flatMap_append]
    refine List.rel_append (hmore.imp ?_) hmore'
    rintro c u ⟨hname, hrole, hscope⟩
    exact ⟨hname, hrole, hclimbs _ _ hscope⟩

theorem Follows.at_current {sites : List Site} {g : ScopeGraph} {before after : Walk}
    (h : Follows doc sourceType sites g before after) {current : Nat}
    (hcurrent : before.stack.head? = some current) : after.At current g :=
  ⟨h.stack_eq ▸ hcurrent, h.mirrors⟩

/-- A walk along the names that a site declares follows their declaration. -/
theorem follows_declared {current : Nat} (ds : List Declaration) :
    ∀ (w : Walk) (g : ScopeGraph), w.At current g →
      Follows doc sourceType [] (ds.foldl (ScopeGraph.declare doc current) g) w
        (w.run (ds.map fun d ↦ .declares d.destination (doc.nameOf d.identifier.node))) := by
  induction ds with
  | nil => intro w g h; exact ⟨rfl, h.mirrors, [], (List.append_nil _).symm, .nil⟩
  | cons d rest ih =>
    intro w g h
    have hstep : (w.step (.declares d.destination (doc.nameOf d.identifier.node))).At current
        (ScopeGraph.declare doc current g d) := by
      refine ⟨h.head?_stack, ?_⟩
      rw [ScopeGraph.declare, step, h.current_eq, h.mirrors.shape.destination_eq]
      exact h.mirrors.bind _ rfl
    have hrest := ih _ _ hstep
    exact ⟨hrest.stack_eq, hrest.mirrors, hrest.met⟩

/-- A walk along the names that a site uses notes its candidates. -/
theorem follows_used (doc : Document) {s : Site} {current : Nat} {g : ScopeGraph} {w : Walk}
    (hcurrent : g.Climbs current (s.chain sourceType)) (hw : w.At current g) :
    Follows doc sourceType [s] g w (w.run (s.used doc)) := by
  rw [Site.used, run_uses, hw.current_eq]
  refine ⟨rfl, hw.mirrors, _, rfl, ?_⟩
  rw [List.flatMap_singleton, List.forall₂_map_right_iff, List.forall₂_same]
  intro c hc
  refine ⟨rfl, rfl, ?_⟩
  rw [(Jsx.sameScope_of_mem_candidatesAt hc).chain_eq]
  exact hcurrent

/-- A walk along the trace of a site follows the visit of the site. -/
def FollowsVisit (doc : Document) (sourceType : SourceType) (s : Site) : Prop :=
  ∀ (p : Site) (current : Nat) (g : ScopeGraph) (w : Walk), s ∈ p.children →
    g.Climbs current (p.chain sourceType) → w.At current g →
      Follows doc sourceType s.subtree (ScopeGraph.visitSite doc current g s) w
        (w.run (s.trace doc))

theorem follows_children (doc : Document) {p : Site} {current : Nat} (cs : List Site) :
    ∀ (g : ScopeGraph) (w : Walk),
      (∀ c ∈ cs, c ∈ p.children ∧ FollowsVisit doc sourceType c) →
      g.Climbs current (p.chain sourceType) → w.At current g →
        Follows doc sourceType (cs.flatMap Site.subtree)
          (cs.foldl (ScopeGraph.visitSite doc current) g) w
          (w.run (cs.flatMap (Site.trace doc))) := by
  induction cs with
  | nil => intro g w _ _ hw; exact ⟨rfl, hw.mirrors, [], (List.append_nil _).symm, .nil⟩
  | cons c rest ih =>
    intro g w hcs hcurrent hw
    obtain ⟨hc, hvisit⟩ := hcs c List.mem_cons_self
    have hfirst := hvisit p current g w hc hcurrent hw
    have hrest := ih _ _ (fun d hd ↦ hcs d (List.mem_cons_of_mem _ hd))
      (hcurrent.visitSite doc c current g) (hfirst.at_current hw.head?_stack)
    rw [List.flatMap_cons, List.flatMap_cons, run_append, List.foldl_cons]
    exact hfirst.append hrest fun id chain h ↦ h.foldl_visitSite doc current rest _

/-- A walk inside the scope of a site follows what is declared, used and visited there. -/
theorem follows_body {s : Site} (hs : ∀ c ∈ s.children, FollowsVisit doc sourceType c)
    {current : Nat} {g : ScopeGraph} {w : Walk} (hcurrent : g.Climbs current (s.chain sourceType))
    (hw : w.At current g) :
    Follows doc sourceType s.subtree
      (s.children.foldl (ScopeGraph.visitSite doc current)
        (s.declarations.foldl (ScopeGraph.declare doc current) g)) w
      (w.run (s.declared doc ++ s.used doc ++ s.innerTrace doc)) := by
  have hdeclared : Follows doc sourceType [] _ w (w.run (s.declared doc)) :=
    follows_declared s.declarations w g hw
  have hclimbs := hcurrent.foldl_declare doc current s.declarations g
  have hused := hdeclared.append
    (follows_used doc hclimbs (hdeclared.at_current hw.head?_stack)) fun _ _ h ↦ h
  have hchildren := follows_children doc s.children _ _ (fun c hc ↦ ⟨hc, hs c hc⟩) hclimbs
    (hused.at_current hw.head?_stack)
  rw [run_append, run_append, Site.subtree_eq]
  exact hused.append hchildren fun id chain h ↦ h.foldl_visitSite doc current s.children _

/-- A walk along the trace of a site follows its visit. -/
theorem followsVisit (s : Site) : FollowsVisit doc sourceType s := by
  induction s using Site.inductionOn with
  | step s ih =>
    intro p current g w hs hcurrent hw
    have hentered := hcurrent.enter_self hs
    rw [ScopeGraph.visitSite_eq, Site.trace_eq, Site.bracketed]
    by_cases hopens : s.opensScope = true
    · have henter : g.enter current s =
          (g.openScope s.scopeKind (some current) (some s), g.size) := if_pos hopens
      rw [henter] at hentered ⊢
      rw [if_pos hopens]
      have hat : (w.step (.opens s.scopeKind)).At g.size
          (g.openScope s.scopeKind (some current) (some s)) := by
        refine ⟨congrArg some hw.mirrors.shape.size_eq, ?_⟩
        rw [step, hw.current_eq]
        exact hw.mirrors.openScope s.scopeKind (some current) (some s) none
      have hbody := follows_body ih hentered hat
      rw [show w.run (.opens s.scopeKind :: (s.declared doc ++ s.used doc ++ s.innerTrace doc ++
        [.closes])) = ((w.step (.opens s.scopeKind)).run (s.declared doc ++ s.used doc ++
          s.innerTrace doc)).step .closes from run_append _ _ _]
      refine ⟨?_, hbody.mirrors, hbody.met⟩
      exact congrArg List.tail hbody.stack_eq
    · have henter : g.enter current s = (g, current) := if_neg hopens
      rw [henter] at hentered ⊢
      rw [if_neg hopens]
      exact follows_body ih hentered hw

end Walk

/-! ### The walk of a document -/

namespace Document

/-- The events of a document. The root opens no scope of its own and declares nothing. -/
def trace (doc : Document) : List Event :=
  (Site.root doc.root).used doc ++ (Site.root doc.root).innerTrace doc

variable (doc : Document) (sourceType : SourceType) (globals : List String)

/-- A walk that has come as far as the scopes of the root. -/
def start : Walk :=
  ⟨[ScopeGraph.rootId sourceType], ScopeGraph.roots doc.root sourceType globals, []⟩

/-- The walk along the trace of a document. -/
def walk : Walk :=
  (doc.start sourceType globals).run doc.trace

theorem climbs_roots : (ScopeGraph.roots doc.root sourceType globals).Climbs
    (ScopeGraph.rootId sourceType) ((Site.root doc.root).chain sourceType) := by
  have hroots := ScopeGraph.climbs_roots doc sourceType globals
  rwa [ScopeGraph.size_roots] at hroots

theorem at_start : (doc.start sourceType globals).At (ScopeGraph.rootId sourceType)
    (ScopeGraph.roots doc.root sourceType globals) :=
  ⟨rfl, ⟨rfl, rfl⟩, fun _ _ ↦ (or_iff_left id).symm⟩

theorem ofDocument_eq_foldl :
    ScopeGraph.ofDocument doc sourceType globals = (Site.root doc.root).children.foldl
      (ScopeGraph.visitSite doc (ScopeGraph.rootId sourceType))
      (ScopeGraph.roots doc.root sourceType globals) := by
  rw [ScopeGraph.ofDocument, ScopeGraph.size_roots]
  exact ScopeGraph.visitAll_children doc _ _ (Site.root doc.root)

/-- The walk of a document follows the analysis of its tree. -/
theorem follows_walk :
    Walk.Follows doc sourceType doc.root.sites (ScopeGraph.ofDocument doc sourceType globals)
      (doc.start sourceType globals) (doc.walk sourceType globals) := by
  have hclimbs := doc.climbs_roots sourceType globals
  have hroot := Walk.follows_used doc hclimbs (doc.at_start sourceType globals)
  have hchildren := Walk.follows_children doc (Site.root doc.root).children _ _
    (fun c hc ↦ ⟨hc, Walk.followsVisit c⟩) hclimbs (hroot.at_current rfl)
  rw [walk, trace, Walk.run_append, ofDocument_eq_foldl, ← Site.subtree_root, Site.subtree_eq]
  exact hroot.append hchildren fun _ _ h ↦ h.foldl_visitSite doc _ _ _

theorem mirrors_walk :
    (ScopeGraph.ofDocument doc sourceType globals).Mirrors (doc.walk sourceType globals).graph :=
  (doc.follows_walk sourceType globals).mirrors

/-- The scopes that the walk of a document notes are those innermost at the candidates. -/
theorem met_walk :
    (doc.walk sourceType globals).met = (Jsx.candidates doc).map fun c ↦
      ⟨c.name, c.role,
        (ScopeGraph.ofDocument doc sourceType globals).innermost c.site.address⟩ := by
  obtain ⟨more, hmet, hmore⟩ := (doc.follows_walk sourceType globals).met
  have htracks := ScopeGraph.tracks_ofDocument doc sourceType globals
  rw [hmet, eq_map_of_forall₂ hmore]
  · rfl
  · rintro c hc ⟨name, role, scope⟩ ⟨rfl, rfl, hscope⟩
    obtain ⟨place, hplace⟩ := c.site.exists_head?_chain sourceType
    have hinnermost := htracks.climbs_innermost (Jsx.within_of_mem_candidates hc)
    exact congrArg (Use.mk c.name c.role) (ScopeGraph.eq_of_getElem?_eq htracks.nodup_places
      (hscope.getElem?_head hplace) (hinnermost.getElem?_head hplace))

end Document

end TagScope
