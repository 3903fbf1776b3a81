import Mathlib.Data.List.Basic
import TagScope.Scope.Graph

/-!
# The operations of the scope graph

One lemma for each operation and each view of the graph. A scope opened later changes nothing of
the scopes before it: their records, ancestors and parents stay (`get?_openScope_of_lt`,
`lineage_openScope_of_lt`), and the new scope has the lineage of its parent below itself
(`lineage_openScope_self`). A binding changes the bindings of one scope and nothing else
(`get?_bind`, `lineage_bind`). The children of a scope are the scopes that name it as their parent,
in the order of their numbers (`children_eq_filter`).
-/

set_option autoImplicit false

namespace TagScope

namespace ScopeGraph

/-! ### Records -/

theorem getIn_eq_none {l : List Scope} : ∀ {id : Nat}, l.length ≤ id → getIn l id = none := by
  induction l with
  | nil => intro id _; rfl
  | cons scope older ih =>
    intro id hid
    rw [List.length_cons] at hid
    rw [getIn, if_neg (by omega)]
    exact ih (by omega)

theorem getIn_isSome {l : List Scope} : ∀ {id : Nat}, id < l.length → (getIn l id).isSome := by
  induction l with
  | nil => intro id hid; exact absurd hid (Nat.not_lt_zero _)
  | cons scope older ih =>
    intro id hid
    rw [List.length_cons] at hid
    by_cases heq : id = older.length
    · rw [getIn, if_pos heq]
      rfl
    · rw [getIn, if_neg heq]
      exact ih (by omega)

theorem lt_size_of_get? {g : ScopeGraph} {id : Nat} {scope : Scope} (h : g.get? id = some scope) :
    id < g.size := by
  by_contra hid
  rw [get?, getIn_eq_none (Nat.le_of_not_lt hid)] at h
  cases h

theorem exists_get?_of_lt {g : ScopeGraph} {id : Nat} (h : id < g.size) :
    ∃ scope, g.get? id = some scope :=
  Option.isSome_iff_exists.mp (getIn_isSome h)

@[simp] theorem size_openScope (g : ScopeGraph) (kind : ScopeKind) (parent : Option Nat)
    (block : Option Site) : (g.openScope kind parent block).size = g.size + 1 := rfl

theorem get?_openScope_self (g : ScopeGraph) (kind : ScopeKind) (parent : Option Nat)
    (block : Option Site) :
    (g.openScope kind parent block).get? g.size = some ⟨kind, parent, block, []⟩ := by
  rw [get?, openScope, getIn]
  exact if_pos rfl

theorem get?_openScope_of_lt {g : ScopeGraph} {id : Nat} (h : id < g.size) (kind : ScopeKind)
    (parent : Option Nat) (block : Option Site) :
    (g.openScope kind parent block).get? id = g.get? id := by
  rw [get?, openScope, getIn]
  exact if_neg (Nat.ne_of_lt h)

/-! ### Bindings -/

/-- What does not depend on the bindings of a scope is the same after a binding is added. -/
theorem map_bindIn {β : Type} {view : Scope → β}
    (hview : ∀ scope bindings, view { scope with bindings := bindings } = view scope)
    (binding : Binding) (l : List Scope) (id : Nat) :
    (bindIn binding l id).map view = l.map view := by
  induction l with
  | nil => rfl
  | cons scope older ih =>
    rw [bindIn]
    split_ifs
    · rw [List.map_cons, hview, List.map_cons]
    · rw [List.map_cons, ih, List.map_cons]

theorem length_bindIn (binding : Binding) (l : List Scope) (id : Nat) :
    (bindIn binding l id).length = l.length := by
  have hkinds : (bindIn binding l id).map Scope.kind = l.map Scope.kind :=
    map_bindIn (fun _ _ ↦ rfl) binding l id
  simpa only [List.length_map] using congrArg List.length hkinds

@[simp] theorem size_bind (g : ScopeGraph) (id : Nat) (binding : Binding) :
    (g.bind id binding).size = g.size := by
  unfold bind
  split_ifs
  · rfl
  · exact length_bindIn binding g.newestFirst id

theorem getIn_bindIn (binding : Binding) (l : List Scope) (id other : Nat) :
    getIn (bindIn binding l id) other =
      (getIn l other).map fun scope ↦
        if other = id then { scope with bindings := scope.bindings ++ [binding] } else scope := by
  induction l with
  | nil => rfl
  | cons scope older ih =>
    by_cases hid : id = older.length
    · rw [bindIn, if_pos hid, getIn, getIn]
      by_cases hother : other = older.length
      · rw [if_pos hother, if_pos hother, Option.map_some, if_pos (hother.trans hid.symm)]
      · rw [if_neg hother, if_neg hother]
        have hne : other ≠ id := fun h ↦ hother (h.trans hid)
        simp only [if_neg hne, Option.map_id']
    · rw [bindIn, if_neg hid, getIn, getIn, length_bindIn]
      by_cases hother : other = older.length
      · have hne : other ≠ id := fun h ↦ hid (h.symm.trans hother)
        rw [if_pos hother, if_pos hother, Option.map_some, if_neg hne]
      · rw [if_neg hother, if_neg hother, ih]

/-- A binding with a name is added at the end of one scope. -/
theorem get?_bind (g : ScopeGraph) (id other : Nat) {binding : Binding} (h : binding.name ≠ "") :
    (g.bind id binding).get? other =
      (g.get? other).map fun scope ↦
        if other = id then { scope with bindings := scope.bindings ++ [binding] } else scope := by
  rw [bind, if_neg h]
  exact getIn_bindIn binding g.newestFirst id other

theorem bind_of_name_eq_empty (g : ScopeGraph) (id : Nat) {binding : Binding}
    (h : binding.name = "") : g.bind id binding = g :=
  if_pos h

/-! ### Parents, children and lineages -/

/-- The parents of all scopes decide what lies above a scope. -/
theorem lineageIn_congr {l : List Scope} :
    ∀ {l' : List Scope}, l.map Scope.parent = l'.map Scope.parent →
      ∀ id, lineageIn l id = lineageIn l' id := by
  induction l with
  | nil =>
    intro l' h id
    cases l' with
    | nil => rfl
    | cons scope' older' => cases h
  | cons scope older ih =>
    intro l' h id
    cases l' with
    | nil => cases h
    | cons scope' older' =>
      obtain ⟨hparent, holder⟩ := List.cons.inj h
      have hlength : older.length = older'.length := by
        simpa only [List.length_map] using congrArg List.length holder
      have hrest : lineageIn older = lineageIn older' := funext (ih holder)
      rw [lineageIn, lineageIn, hlength, hparent, hrest]

theorem lineage_bind (g : ScopeGraph) (id other : Nat) (binding : Binding) :
    (g.bind id binding).lineage other = g.lineage other := by
  unfold bind
  split_ifs
  · rfl
  · exact lineageIn_congr (map_bindIn (fun _ _ ↦ rfl) binding g.newestFirst id) other

theorem lineage_openScope_of_lt {g : ScopeGraph} {id : Nat} (h : id < g.size) (kind : ScopeKind)
    (parent : Option Nat) (block : Option Site) :
    (g.openScope kind parent block).lineage id = g.lineage id := by
  rw [lineage, openScope, lineageIn]
  exact if_neg (Nat.ne_of_lt h)

theorem lineage_openScope_self (g : ScopeGraph) (kind : ScopeKind) (parent : Option Nat)
    (block : Option Site) :
    (g.openScope kind parent block).lineage g.size = g.size :: parent.elim [] g.lineage := by
  rw [lineage, openScope, lineageIn]
  exact if_pos rfl

/-- Every parent was opened before its children. -/
def Ranked (g : ScopeGraph) : Prop :=
  ∀ id scope, g.get? id = some scope → ∀ parent ∈ scope.parent, parent < id

theorem lineageIn_eq {l : List Scope} : ∀ {id : Nat} {scope : Scope}, getIn l id = some scope →
    (∀ parent ∈ scope.parent, parent < id) →
      lineageIn l id = id :: scope.parent.elim [] (lineageIn l) := by
  induction l with
  | nil => intro id scope h; cases h
  | cons newest older ih =>
    intro id scope hget hparent
    -- A parent that stands among the older scopes is looked up in them.
    have holder : ∀ parent, parent < older.length →
        lineageIn (newest :: older) parent = lineageIn older parent := fun parent hlt ↦ by
      rw [lineageIn, if_neg (Nat.ne_of_lt hlt)]
    have hrest : id ≤ older.length → scope.parent.elim [] (lineageIn (newest :: older)) =
        scope.parent.elim [] (lineageIn older) := by
      intro hid
      cases hscope : scope.parent with
      | none => rfl
      | some parent => exact holder parent (Nat.lt_of_lt_of_le (hparent parent hscope) hid)
    rw [getIn] at hget
    split_ifs at hget with hid
    · obtain rfl := Option.some.inj hget
      rw [hrest (Nat.le_of_eq hid), lineageIn, if_pos hid]
    · have hlt : id < older.length := by
        by_contra hge
        rw [getIn_eq_none (Nat.le_of_not_lt hge)] at hget
        cases hget
      rw [hrest (Nat.le_of_lt hlt), holder id hlt]
      exact ih hget hparent

/-- The lineage of a scope is the scope followed by the lineage of its parent. -/
theorem Ranked.lineage_eq {g : ScopeGraph} (hg : g.Ranked) {id : Nat} {scope : Scope}
    (h : g.get? id = some scope) : g.lineage id = id :: scope.parent.elim [] g.lineage :=
  lineageIn_eq h (hg id scope h)

/-- What lies above a scope was opened before it. -/
theorem le_of_mem_lineageIn {l : List Scope} :
    ∀ {id other : Nat}, other ∈ lineageIn l id → other ≤ id ∧ id < l.length := by
  induction l with
  | nil => intro id other h; simp [lineageIn] at h
  | cons scope older ih =>
    intro id other h
    rw [lineageIn] at h
    rw [List.length_cons]
    split_ifs at h with heq
    · rcases List.mem_cons.mp h with rfl | h
      · omega
      · cases hparent : scope.parent with
        | none => rw [hparent] at h; simp at h
        | some parent =>
          rw [hparent] at h
          have hle := ih h
          omega
    · have hle := ih h
      omega

theorem childrenIn_eq_filter (l : List Scope) (id : Nat) :
    childrenIn l id =
      (List.range l.length).filter fun child ↦ (getIn l child).bind Scope.parent = some id := by
  induction l with
  | nil => rfl
  | cons newest older ih =>
    have holder : (List.range older.length).filter (fun child ↦
          (getIn (newest :: older) child).bind Scope.parent = some id) =
        (List.range older.length).filter fun child ↦
          (getIn older child).bind Scope.parent = some id := by
      refine List.filter_congr fun child hchild ↦ ?_
      rw [getIn, if_neg (Nat.ne_of_lt (List.mem_range.mp hchild))]
    rw [childrenIn, ih, List.length_cons, List.range_succ, List.filter_append, holder]
    congr 1
    rw [List.filter_singleton, getIn, if_pos rfl]
    simp

/-- The children of a scope are the scopes that name it as their parent, in the order of their
numbers. -/
theorem children_eq_filter (g : ScopeGraph) (id : Nat) :
    g.children id = (List.range g.size).filter fun child ↦ g.parent? child = some id :=
  childrenIn_eq_filter g.newestFirst id

theorem mem_children_iff {g : ScopeGraph} {id child : Nat} :
    child ∈ g.children id ↔ g.parent? child = some id := by
  rw [children_eq_filter, List.mem_filter, List.mem_range, decide_eq_true_eq]
  refine ⟨And.right, fun h ↦ ⟨?_, h⟩⟩
  obtain ⟨scope, hscope, -⟩ := Option.bind_eq_some_iff.mp h
  exact lt_size_of_get? hscope

theorem Ranked.lt_of_parent? {g : ScopeGraph} (hg : g.Ranked) {id child : Nat}
    (h : g.parent? child = some id) : id < child := by
  obtain ⟨scope, hscope, hparent⟩ := Option.bind_eq_some_iff.mp h
  exact hg child scope hscope id hparent

theorem Ranked.mem_lineage_of_parent? {g : ScopeGraph} (hg : g.Ranked) {id child : Nat}
    (h : g.parent? child = some id) : id ∈ g.lineage child := by
  obtain ⟨scope, hscope, hparent⟩ := Option.bind_eq_some_iff.mp h
  obtain ⟨parent, hget⟩ := exists_get?_of_lt
    (Nat.lt_trans (hg.lt_of_parent? h) (lt_size_of_get? hscope))
  rw [hg.lineage_eq hscope, hparent, Option.elim_some, hg.lineage_eq hget]
  exact List.mem_cons_of_mem _ List.mem_cons_self

/-- A scope that lies below the one numbered just before it is its child. -/
theorem Ranked.parent?_succ {g : ScopeGraph} (hg : g.Ranked) {id : Nat}
    (h : id ∈ g.lineage (id + 1)) : g.parent? (id + 1) = some id := by
  obtain ⟨scope, hscope⟩ := exists_get?_of_lt (le_of_mem_lineageIn h).2
  rw [hg.lineage_eq hscope] at h
  rcases List.mem_cons.mp h with heq | h
  · omega
  · cases hparent : scope.parent with
    | none => rw [hparent] at h; simp at h
    | some parent =>
      rw [hparent] at h
      have hlt := hg _ scope hscope parent hparent
      have hle := (le_of_mem_lineageIn h).1
      rw [parent?, hscope, Option.bind_some, hparent]
      congr 1
      omega

/-- The scope numbered just after a scope is its first child, if it lies below it at all. -/
theorem Ranked.head?_children {g : ScopeGraph} (hg : g.Ranked) {id : Nat}
    (h : id ∈ g.lineage (id + 1)) : (g.children id).head? = some (id + 1) := by
  rw [children_eq_filter, List.head?_filter, List.find?_range_eq_some, List.mem_range]
  refine ⟨decide_eq_true (hg.parent?_succ h), (le_of_mem_lineageIn h).2, fun other hother ↦ ?_⟩
  rw [Bool.not_eq_true', decide_eq_false_iff_not]
  intro hparent
  have hlt := hg.lt_of_parent? hparent
  omega

/-! ### Scopes by address -/

theorem openedAtIn_eq_some {address : Address} {l : List Scope} :
    ∀ {id : Nat}, openedAtIn address l = some id →
      (∃ scope, getIn l id = some scope ∧ scope.block.map Site.address = some address) ∧
        ∀ other scope, getIn l other = some scope →
          scope.block.map Site.address = some address → other ≤ id := by
  induction l with
  | nil => intro id h; cases h
  | cons newest older ih =>
    intro id h
    rw [openedAtIn] at h
    split_ifs at h with hblock
    · obtain rfl := Option.some.inj h
      refine ⟨⟨newest, by rw [getIn, if_pos rfl], hblock⟩, fun other scope hget _ ↦ ?_⟩
      have hlt : other < (newest :: older).length := lt_size_of_get? (g := ⟨newest :: older⟩) hget
      exact Nat.le_of_lt_succ hlt
    · obtain ⟨⟨scope, hscope, haddress⟩, hnewest⟩ := ih h
      have hid : id < older.length := lt_size_of_get? (g := ⟨older⟩) hscope
      refine ⟨⟨scope, by rw [getIn, if_neg (Nat.ne_of_lt hid), hscope], haddress⟩, ?_⟩
      intro other found hget hfound
      rw [getIn] at hget
      split_ifs at hget with hother
      · obtain rfl := Option.some.inj hget
        exact absurd hfound hblock
      · exact hnewest other found hget hfound

theorem openedAtIn_eq_none {address : Address} {l : List Scope}
    (h : openedAtIn address l = none) :
    ∀ id scope, getIn l id = some scope → scope.block.map Site.address ≠ some address := by
  induction l with
  | nil => intro id scope hget; cases hget
  | cons newest older ih =>
    rw [openedAtIn] at h
    split_ifs at h with hblock
    intro id scope hget
    rw [getIn] at hget
    split_ifs at hget
    · rw [← Option.some.inj hget]
      exact hblock
    · exact ih h id scope hget

/-! ### Growth -/

theorem Ranked.openScope {g : ScopeGraph} (hg : g.Ranked) (kind : ScopeKind)
    {parent : Option Nat} (hparent : ∀ id ∈ parent, id < g.size) (block : Option Site) :
    (g.openScope kind parent block).Ranked := by
  intro id scope hget
  by_cases hid : id < g.size
  · rw [get?_openScope_of_lt hid] at hget
    exact hg id scope hget
  · have hlt := lt_size_of_get? hget
    rw [size_openScope] at hlt
    obtain rfl : id = g.size := by omega
    rw [get?_openScope_self] at hget
    obtain rfl := Option.some.inj hget
    exact hparent

theorem Ranked.bind {g : ScopeGraph} (hg : g.Ranked) (id : Nat) (binding : Binding) :
    (g.bind id binding).Ranked := by
  intro other scope hget
  by_cases hname : binding.name = ""
  · rw [bind_of_name_eq_empty g id hname] at hget
    exact hg other scope hget
  · rw [get?_bind g id other hname] at hget
    obtain ⟨old, hold, rfl⟩ := Option.map_eq_some_iff.mp hget
    have hparent := hg other old hold
    split_ifs
    · exact hparent
    · exact hparent

end ScopeGraph

end TagScope
