import TagScope.Proofs.Checked.Lookup
import TagScope.Proofs.Scope.Growth

/-!
# The scope analysis with a stack

The analysis of a tree, restated with the scopes that are open on a stack. A scope is put on the
stack when its site is entered and taken off when the site is left, and declared names go to scopes
on the stack: to the top one, to the one below it, or to the first one that owns variables. Each of
these look-ups fails if the stack is too short. It never is. Where the analysis stands in a scope,
the stack is the lineage of that scope and ends with the first scope of the graph (`Frame.Stands`);
so visiting a tree succeeds, leaves the stack as it was, and yields the graph of the analysis
(`visitSite_eq`, `analysis_eq`).
-/

set_option autoImplicit false

namespace TagScope

namespace Checked

open ScopeGraph (GrowsTo)

/-- A graph and the scopes of it that are open, innermost first. -/
structure Frame where
  graph : ScopeGraph
  stack : List Nat

namespace Frame

def enter (f : Frame) (s : Site) : Except Lack Frame :=
  if s.opensScope then
    (pick f.stack 0).map fun current ↦
      ⟨f.graph.openScope s.scopeKind (some current) (some s), f.graph.size :: f.stack⟩
  else .ok f

def leave (f : Frame) (s : Site) : Except Lack Frame :=
  if s.opensScope then
    match f.stack with
    | _ :: below => .ok ⟨f.graph, below⟩
    | [] => .error .position
  else .ok f

def destination (f : Frame) : Destination → Except Lack Nat
  | .current => pick f.stack 0
  | .enclosing => if 1 < f.stack.length then pick f.stack 1 else pickLast f.stack
  | .varOwner =>
    match f.stack.find? fun id ↦ (f.graph.kind? id).any ScopeKind.ownsVars with
    | some id => .ok id
    | none => pickLast f.stack

def declare (doc : Document) (f : Frame) (d : Declaration) : Except Lack Frame :=
  (f.destination d.destination).map fun target ↦
    ⟨f.graph.bind target ⟨doc.nameOf d.identifier.node, d.kind, some d.identifier⟩, f.stack⟩

end Frame

mutual

def visit (doc : Document) (above : Ascent) : Node → Frame → Except Lack Frame
  | n@⟨_, children⟩, f => do
    let entered ← f.enter ⟨n, above⟩
    let declared ← (← declarations ⟨n, above⟩).foldlM (Frame.declare doc) entered
    let visited ← visitAll doc n above 0 children declared
    visited.leave ⟨n, above⟩

def visitAll (doc : Document) (parent : Node) (above : Ascent) (index : Nat) :
    List Node → Frame → Except Lack Frame
  | [], f => .ok f
  | c :: rest, f => do
    let visited ← visit doc ((index, parent) :: above) c f
    visitAll doc parent above (index + 1) rest visited

end

/-- The scope graph of a document. -/
def analysis (doc : Document) (sourceType : SourceType) (globals : List String) :
    Except Lack ScopeGraph :=
  (visitAll doc doc.root [] 0 doc.root.children
    ⟨ScopeGraph.roots doc.root sourceType globals, ScopeGraph.rootIds sourceType⟩).map Frame.graph

/-! ### Where the analysis stands -/

/-- The analysis stands in a scope: the stack holds the scopes from that one up to the first. -/
structure Frame.Stands (f : Frame) (current : Nat) : Prop where
  ranked : f.graph.Ranked
  lt_size : current < f.graph.size
  stack_eq : f.stack = f.graph.lineage current
  getLast? : f.stack.getLast? = some 0

namespace Frame.Stands

variable {f : Frame} {current : Nat} (h : f.Stands current)
include h

/-- A growing graph leaves the stack as it is. -/
theorem of_growsTo {g : ScopeGraph} (hgrows : f.graph.GrowsTo g) (hranked : g.Ranked) :
    Frame.Stands ⟨g, f.stack⟩ current where
  ranked := hranked
  lt_size := Nat.lt_of_lt_of_le h.lt_size hgrows.size_le
  stack_eq := h.stack_eq.trans (hgrows.lineage_eq current h.lt_size).symm
  getLast? := h.getLast?

theorem exists_stack_eq : ∃ scope, f.graph.get? current = some scope ∧
    f.stack = current :: scope.parent.elim [] f.graph.lineage := by
  obtain ⟨scope, hscope⟩ := ScopeGraph.exists_get?_of_lt h.lt_size
  exact ⟨scope, hscope, h.stack_eq.trans (h.ranked.lineage_eq hscope)⟩

theorem pick_stack : pick f.stack 0 = .ok current := by
  obtain ⟨scope, -, hstack⟩ := h.exists_stack_eq
  rw [hstack]
  rfl

theorem enter (s : Site) :
    f.enter s = .ok ⟨(f.graph.enter current s).1,
        (if s.opensScope then [f.graph.size] else []) ++ f.stack⟩ ∧
      Frame.Stands ⟨(f.graph.enter current s).1,
        (if s.opensScope then [f.graph.size] else []) ++ f.stack⟩ (f.graph.enter current s).2 := by
  unfold Frame.enter ScopeGraph.enter
  split_ifs
  · rw [h.pick_stack]
    refine ⟨rfl, h.ranked.openScope s.scopeKind (by simpa using h.lt_size) (some s),
      Nat.lt_succ_self _, ?_, ?_⟩
    · exact (congrArg (List.cons f.graph.size) h.stack_eq).trans
        (ScopeGraph.lineage_openScope_self f.graph s.scopeKind (some current) (some s)).symm
    · rw [List.singleton_append, List.getLast?_cons, h.getLast?]
      rfl
  · exact ⟨rfl, h⟩

theorem destination_eq (destination : Destination) :
    f.destination destination = .ok (f.graph.destination current destination) := by
  cases destination with
  | current => exact h.pick_stack
  | enclosing =>
    obtain ⟨scope, hscope, hstack⟩ := h.exists_stack_eq
    unfold Frame.destination ScopeGraph.destination ScopeGraph.parent?
    rw [hstack, hscope, Option.bind_some]
    cases hparent : scope.parent with
    | none => rfl
    | some parent =>
      have hlt := h.ranked current scope hscope parent hparent
      obtain ⟨outer, houter⟩ := ScopeGraph.exists_get?_of_lt (Nat.lt_trans hlt h.lt_size)
      rw [Option.elim_some, h.ranked.lineage_eq houter]
      exact if_pos (by simp)
  | varOwner =>
    unfold Frame.destination ScopeGraph.destination
    rw [← h.stack_eq]
    cases f.stack.find? fun id ↦ (f.graph.kind? id).any ScopeKind.ownsVars with
    | some id => rfl
    | none => exact pickLast_eq h.getLast?

theorem declare (doc : Document) (d : Declaration) :
    f.declare doc d = .ok ⟨ScopeGraph.declare doc current f.graph d, f.stack⟩ ∧
      Frame.Stands ⟨ScopeGraph.declare doc current f.graph d, f.stack⟩ current := by
  refine ⟨?_, h.of_growsTo (ScopeGraph.growsTo_declare doc current f.graph d)
    (ScopeGraph.ranked_declare h.ranked doc current d)⟩
  rw [Frame.declare, h.destination_eq]
  rfl

end Frame.Stands

/-- A frame's analysis goes on from a scope: it succeeds with a graph, the stack is the same, and
the scope is still the one it stands in. -/
structure GoesOn (f : Frame) (current : Nat) (result : Except Lack Frame) (g : ScopeGraph) :
    Prop where
  eq_ok : result = .ok ⟨g, f.stack⟩
  stands : Frame.Stands ⟨g, f.stack⟩ current

/-- Steps that each let the analysis go on do so one after the other. -/
theorem goesOn_foldlM {α : Type} {current : Nat} {check : Frame → α → Except Lack Frame}
    {step : ScopeGraph → α → ScopeGraph} (l : List α) :
    (∀ a ∈ l, ∀ f : Frame, f.Stands current →
      GoesOn f current (check f a) (step f.graph a)) →
    ∀ f : Frame, f.Stands current → GoesOn f current (l.foldlM check f) (l.foldl step f.graph) := by
  induction l with
  | nil => exact fun _ f h ↦ ⟨rfl, h⟩
  | cons a rest ih =>
    intro hstep f h
    obtain ⟨heq, hstands⟩ := hstep a List.mem_cons_self f h
    have hrest := ih (fun b hb ↦ hstep b (List.mem_cons_of_mem _ hb)) _ hstands
    refine ⟨?_, hrest.stands⟩
    rw [List.foldlM_cons, heq]
    exact hrest.eq_ok

/-! ### Visiting, site by site -/

def visitSite (doc : Document) (f : Frame) (s : Site) : Except Lack Frame :=
  visit doc s.above s.node f

theorem visitAll_eq_foldlM (doc : Document) (parent : Node) (above : Ascent) (cs : List Node) :
    ∀ (index : Nat) (f : Frame), visitAll doc parent above index cs f =
      (Site.childSites parent above index cs).foldlM (visitSite doc) f := by
  induction cs with
  | nil => intro index f; rw [visitAll]; rfl
  | cons c rest ih =>
    intro index f
    rw [visitAll, Site.childSites_cons, List.foldlM_cons]
    simp only [ih]
    rfl

theorem visitSite_unfold (doc : Document) (f : Frame) (s : Site) :
    visitSite doc f s = (do
      let entered ← f.enter s
      let declared ← (← declarations s).foldlM (Frame.declare doc) entered
      let visited ← s.children.foldlM (visitSite doc) declared
      visited.leave s) := by
  obtain ⟨⟨label, cs⟩, above⟩ := s
  rw [visitSite, visit]
  simp only [visitAll_eq_foldlM, Site.children_eq]

theorem leave_eq (g : ScopeGraph) (s : Site) (top : Nat) (stack : List Nat) :
    Frame.leave ⟨g, (if s.opensScope then [top] else []) ++ stack⟩ s = .ok ⟨g, stack⟩ := by
  unfold Frame.leave
  split_ifs
  · rfl
  · rfl

/-- No look-up fails while a site and all that is below it are visited. -/
theorem goesOn_visitSite (doc : Document) (s : Site) : ∀ (f : Frame) (current : Nat),
    f.Stands current →
      GoesOn f current (visitSite doc f s) (ScopeGraph.visitSite doc current f.graph s) := by
  induction s using Site.inductionOn with
  | step s ih =>
    intro f current h
    obtain ⟨hentered, hstands⟩ := h.enter s
    obtain ⟨hdeclared, hstands⟩ := goesOn_foldlM s.declarations
      (fun d _ f h ↦ ⟨(h.declare doc d).1, (h.declare doc d).2⟩) _ hstands
    obtain ⟨hvisited, hstands⟩ := goesOn_foldlM s.children
      (fun c hc f h ↦ ih c hc f _ h) _ hstands
    have hgraph := ScopeGraph.visitSite_eq doc current f.graph s
    refine ⟨?_, h.of_growsTo (ScopeGraph.growsTo_visitSite doc s current f.graph) ?_⟩
    · rw [visitSite_unfold, bind_of_eq_ok hentered, bind_of_eq_ok (declarations_eq s),
        bind_of_eq_ok hdeclared, bind_of_eq_ok hvisited, leave_eq, hgraph]
    · rw [hgraph]
      exact hstands.ranked

theorem stands_roots (doc : Document) (sourceType : SourceType) (globals : List String) :
    Frame.Stands ⟨ScopeGraph.roots doc.root sourceType globals, ScopeGraph.rootIds sourceType⟩
      (ScopeGraph.rootId sourceType) where
  ranked := (ScopeGraph.tracks_roots doc sourceType globals).ranked
  lt_size := by
    rw [ScopeGraph.roots_eq]
    cases sourceType <;> exact Nat.lt_succ_self _
  stack_eq := by
    rw [ScopeGraph.roots_eq]
    cases sourceType <;> rfl
  getLast? := by cases sourceType <;> rfl

/-- No look-up fails in the analysis of a document, and its graph is the document's. -/
theorem analysis_eq (doc : Document) (sourceType : SourceType) (globals : List String) :
    analysis doc sourceType globals = .ok (ScopeGraph.ofDocument doc sourceType globals) := by
  have hvisited := (goesOn_foldlM (Site.root doc.root).children
    (fun c _ f h ↦ goesOn_visitSite doc c f _ h) _ (stands_roots doc sourceType globals)).eq_ok
  rw [analysis, visitAll_eq_foldlM]
  refine (congrArg (Except.map Frame.graph) hvisited).trans ?_
  rw [Document.ofDocument_eq_foldl]
  rfl

end Checked

end TagScope
