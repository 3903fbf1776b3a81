import Mathlib.Data.List.Flatten
import TagScope.Proofs.Scope.Walk

/-!
# Graphs that grow

A scope graph grows when scopes are opened and names are bound. One step leaves the kinds and the
ancestors of the scopes that exist as they are, and adds children and bindings only behind those a
scope has (`GrowsTo.step`); so does a run of steps (`GrowsTo.run`), whatever scopes the steps
concern, and so does the analysis of a document (`growsTo_visitSite`). The way up from a scope is
therefore settled when the scope is opened. What is seen below its end is not, but a first child
stays the first. So the visible scopes of an earlier graph are the first ones of a later graph, and
nothing that was visible goes out of sight (`visible_sublist_run`).
-/

set_option autoImplicit false

namespace TagScope

namespace ScopeGraph

/-- What a later graph has of an earlier one. -/
structure GrowsTo (g g' : ScopeGraph) : Prop where
  size_le : g.size ≤ g'.size
  lineage_eq : ∀ id < g.size, g'.lineage id = g.lineage id
  kind?_eq : ∀ id < g.size, g'.kind? id = g.kind? id
  children : ∀ id, g.children id <+: g'.children id
  bindings : ∀ id, g.bindings id <+: g'.bindings id

theorem GrowsTo.refl (g : ScopeGraph) : g.GrowsTo g :=
  ⟨Nat.le_refl _, fun _ _ ↦ rfl, fun _ _ ↦ rfl, fun _ ↦ List.prefix_rfl, fun _ ↦ List.prefix_rfl⟩

theorem GrowsTo.trans {g g' g'' : ScopeGraph} (h : g.GrowsTo g') (h' : g'.GrowsTo g'') :
    g.GrowsTo g'' where
  size_le := Nat.le_trans h.size_le h'.size_le
  lineage_eq id hid :=
    (h'.lineage_eq id (Nat.lt_of_lt_of_le hid h.size_le)).trans (h.lineage_eq id hid)
  kind?_eq id hid := (h'.kind?_eq id (Nat.lt_of_lt_of_le hid h.size_le)).trans (h.kind?_eq id hid)
  children id := (h.children id).trans (h'.children id)
  bindings id := (h.bindings id).trans (h'.bindings id)

/-! ### Steps -/

theorem growsTo_openScope (g : ScopeGraph) (kind : ScopeKind) (parent : Option Nat)
    (block : Option Site) : g.GrowsTo (g.openScope kind parent block) where
  size_le := Nat.le_succ g.size
  lineage_eq _ hid := lineage_openScope_of_lt hid kind parent block
  kind?_eq id hid := by rw [kind?, get?_openScope_of_lt hid, kind?]
  children id := by
    unfold ScopeGraph.children openScope
    rw [childrenIn]
    exact List.prefix_append _ _
  bindings id := ⟨[], by rw [List.append_nil, bindings_openScope]⟩

theorem growsTo_bind (g : ScopeGraph) (target : Nat) (binding : Binding) :
    g.GrowsTo (g.bind target binding) where
  size_le := Nat.le_of_eq (size_bind g target binding).symm
  lineage_eq id _ := lineage_bind g target id binding
  kind?_eq id _ := (sameShape_bind g target binding).kind?_eq id
  children id := ⟨[], by rw [List.append_nil, (sameShape_bind g target binding).children_eq]⟩
  bindings id := by
    by_cases hname : binding.name = ""
    · exact ⟨[], by rw [List.append_nil, bind_of_name_eq_empty g target hname]⟩
    · unfold ScopeGraph.bindings
      rw [get?_bind g target id hname]
      cases g.get? id with
      | none => exact List.prefix_rfl
      | some scope =>
        rw [Option.map_some, Option.elim_some, Option.elim_some]
        split_ifs
        · exact List.prefix_append _ _
        · exact List.prefix_rfl

/-- A step of growth: a scope is opened, under another one or as a root, or a name is bound in a
scope. -/
inductive Step where
  | opens (kind : ScopeKind) (parent : Option Nat) (block : Option Site)
  | binds (scope : Nat) (binding : Binding)

def step (g : ScopeGraph) : Step → ScopeGraph
  | .opens kind parent block => g.openScope kind parent block
  | .binds scope binding => g.bind scope binding

def run (g : ScopeGraph) (steps : List Step) : ScopeGraph :=
  steps.foldl step g

theorem GrowsTo.step (g : ScopeGraph) (s : Step) : g.GrowsTo (g.step s) := by
  cases s with
  | opens kind parent block => exact growsTo_openScope g kind parent block
  | binds scope binding => exact growsTo_bind g scope binding

theorem growsTo_foldl {α : Type} {f : ScopeGraph → α → ScopeGraph} (l : List α) :
    (∀ a ∈ l, ∀ g : ScopeGraph, g.GrowsTo (f g a)) → ∀ g : ScopeGraph, g.GrowsTo (l.foldl f g) := by
  induction l with
  | nil => exact fun _ ↦ GrowsTo.refl
  | cons a rest ih =>
    intro h g
    exact (h a List.mem_cons_self g).trans
      (ih (fun b hb ↦ h b (List.mem_cons_of_mem _ hb)) (f g a))

theorem GrowsTo.run (steps : List Step) (g : ScopeGraph) : g.GrowsTo (g.run steps) :=
  growsTo_foldl steps (fun s _ g ↦ GrowsTo.step g s) g

/-! ### The analysis -/

theorem growsTo_enter (g : ScopeGraph) (current : Nat) (s : Site) :
    g.GrowsTo (g.enter current s).1 := by
  unfold enter
  split_ifs
  · exact growsTo_openScope g s.scopeKind (some current) (some s)
  · exact GrowsTo.refl g

theorem growsTo_declare (doc : Document) (current : Nat) (g : ScopeGraph) (d : Declaration) :
    g.GrowsTo (declare doc current g d) :=
  growsTo_bind g _ _

/-- A graph grows while a site and all that is below it are visited. -/
theorem growsTo_visitSite (doc : Document) (s : Site) :
    ∀ (current : Nat) (g : ScopeGraph), g.GrowsTo (visitSite doc current g s) := by
  induction s using Site.inductionOn with
  | step s ih =>
    intro current g
    rw [visitSite_eq]
    have hentered := growsTo_enter g current s
    have hdeclared := growsTo_foldl s.declarations
      (fun d _ g' ↦ growsTo_declare doc (g.enter current s).2 g' d) (g.enter current s).1
    exact (hentered.trans hdeclared).trans (growsTo_foldl s.children (fun c hc ↦ ih c hc _) _)

/-! ### What stays visible -/

theorem lineage_eq_nil {g : ScopeGraph} {id : Nat} (h : g.size ≤ id) : g.lineage id = [] :=
  List.eq_nil_iff_forall_not_mem.mpr fun _ hmem ↦
    absurd (le_of_mem_lineageIn hmem).2 (Nat.not_lt_of_le h)

theorem upToFirst_congr {stop stop' : Nat → Bool} {ids : List Nat}
    (h : ∀ id ∈ ids, stop' id = stop id) : upToFirst stop' ids = upToFirst stop ids := by
  induction ids with
  | nil => rfl
  | cons id rest ih =>
    rw [upToFirst, upToFirst, h id List.mem_cons_self,
      ih fun other hother ↦ h other (List.mem_cons_of_mem _ hother)]

section Sight

variable {g g' : ScopeGraph} (h : g.GrowsTo g')
include h

theorem GrowsTo.climb_eq {id : Nat} (hid : id < g.size) (bound : ScopeKind) :
    g'.climb id bound = g.climb id bound := by
  rw [climb, climb, h.lineage_eq id hid]
  refine upToFirst_congr fun other hother ↦ ?_
  have hlt : other < g.size := Nat.lt_of_le_of_lt (le_of_mem_lineageIn hother).1 hid
  rw [stopsAt, stopsAt, h.kind?_eq other hlt]

theorem GrowsTo.head?_children {id child : Nat} (hchild : (g.children id).head? = some child) :
    (g'.children id).head? = some child := by
  obtain ⟨later, hlater⟩ := h.children id
  rw [← hlater, List.head?_append, hchild, Option.some_or]

/-- A first child and a first grandchild stay what they are, and there may come to be some. -/
theorem GrowsTo.peeked (id : Nat) : g.peeked id <+: g'.peeked id := by
  unfold ScopeGraph.peeked
  cases hchild : (g.children id).head? with
  | none => exact List.nil_prefix
  | some child =>
    rw [h.head?_children hchild]
    refine List.cons_prefix_cons.mpr ⟨rfl, ?_⟩
    cases hgrandchild : (g.children child).head? with
    | none => exact List.nil_prefix
    | some grandchild => exact ⟨[], by rw [List.append_nil, h.head?_children hgrandchild]⟩

theorem GrowsTo.visibleScopes {id : Nat} (hid : id < g.size) (bound : ScopeKind) :
    g.visibleScopes id bound <+: g'.visibleScopes id bound := by
  unfold ScopeGraph.visibleScopes
  rw [h.climb_eq hid]
  refine (List.prefix_append_right_inj _).mpr ?_
  cases (g.climb id bound).getLast? with
  | none => exact List.prefix_rfl
  | some top => exact h.peeked top

theorem GrowsTo.visible (id : Nat) (bound : ScopeKind) :
    (g.visible id bound).Sublist (g'.visible id bound) := by
  by_cases hid : id < g.size
  · have hbindings : ((g.visibleScopes id bound).flatMap g.bindings).Sublist
        ((g.visibleScopes id bound).flatMap g'.bindings) :=
      List.Sublist.flatMap_right _ fun other _ ↦ (h.bindings other).sublist
    exact hbindings.trans ((h.visibleScopes hid bound).sublist.flatMap g'.bindings)
  · have hnone : g.visible id bound = [] := by
      rw [ScopeGraph.visible, ScopeGraph.visibleScopes, climb,
        lineage_eq_nil (Nat.le_of_not_lt hid)]
      rfl
    rw [hnone]
    exact List.nil_sublist _

theorem GrowsTo.resolves {name : String} {id : Nat} {bound : ScopeKind}
    (hname : g.resolves name id bound = true) : g'.resolves name id bound = true := by
  rw [ScopeGraph.resolves, Bool.or_eq_true, List.any_eq_true] at hname ⊢
  refine hname.imp_right ?_
  rintro ⟨binding, hbinding, heq⟩
  exact ⟨binding, (h.visible id bound).subset hbinding, heq⟩

end Sight

/-- Resolution is monotone. Whatever scopes are opened and names are bound from some point on, what
is visible from a scope at that point stays visible, in the same order, and a name that resolves
goes on resolving. -/
theorem visible_sublist_run (g : ScopeGraph) (steps : List Step) (id : Nat) (bound : ScopeKind) :
    (g.visible id bound).Sublist ((g.run steps).visible id bound) ∧
      ∀ name, g.resolves name id bound = true →
        (g.run steps).resolves name id bound = true :=
  ⟨(GrowsTo.run steps g).visible id bound, fun _ ↦ (GrowsTo.run steps g).resolves⟩

/-- A name comes into sight of a scope when a first child that binds it is opened. -/
example :
    let g := empty.openScope .module none none
    g.resolves "A" 0 .module = false ∧
      (g.run [.opens .block (some 0) none, .binds 1 ⟨"A", "const", none⟩]).resolves "A" 0
        .module = true := by
  decide

end ScopeGraph

end TagScope
