import Mathlib.Data.List.Basic
import TagScope.Ignore.Pattern
import TagScope.Proofs.Ignore.Items

/-!
# The segments of a pattern

The normal form of a pattern is reached in two steps: its beginning is made explicit (`placed`),
then its end, and runs of `**` are collapsed (`settled`). A text without wildcards stands for
itself (`IsLiteral`), so literal segments pass through both the normal form (`settled_append`) and
the making of items (`itemsOf_append`), and the pattern matches only what begins with them
(`itemsMatch_sequence_append`).

What follows the first segments of a pattern begins with a slash, whatever it is
(`head?_of_itemsMatch`).
-/

set_option autoImplicit false

namespace TagScope.Ignore

/-! ### Literal texts -/

/-- The characters that do not stand for themselves in a pattern. -/
def wildcards : List Char := ['*', '?', '[', '\\']

/-- A text without wildcards. -/
def IsLiteral (text : List Char) : Prop :=
  ∀ c ∈ text, c ∉ wildcards

instance (text : List Char) : Decidable (IsLiteral text) :=
  decidable_of_iff ((text.all fun c ↦ !wildcards.contains c) = true) (by simp [IsLiteral])

theorem IsLiteral.ne_deep {segment : Segment} (h : IsLiteral segment) : segment ≠ deep := by
  rintro rfl
  exact h '*' (by decide) (by decide)

theorem IsLiteral.ne_star {segment : Segment} (h : IsLiteral segment) : segment ≠ star := by
  rintro rfl
  exact h '*' (by decide) (by decide)

theorem itemsFrom_of_isLiteral {text : List Char} (h : IsLiteral text) :
    itemsFrom .plain text = .ok (text.map .char) := by
  induction text with
  | nil => rfl
  | cons c text ih =>
    obtain ⟨hc, htext⟩ := List.forall_mem_cons.mp h
    simp only [wildcards, List.mem_cons, List.not_mem_nil, or_false, not_or] at hc
    obtain ⟨hstar, hone, hopen, hescape⟩ := hc
    rw [itemsFrom, ih htext]
    · rfl
    all_goals assumption

theorem segmentItems_of_isLiteral {segment : Segment} (h : IsLiteral segment) :
    segmentItems segment = .ok (segment.map .char) := by
  rw [segmentItems, if_neg h.ne_star, itemsFrom_of_isLiteral h]

/-! ### The normal form -/

/-- The segments of a pattern with its beginning made explicit. -/
def placed (segments : List Segment) : List Segment :=
  match segments with
  | [] :: rest => rest
  | [only] => if only = deep then [only] else [deep, only]
  | [only, []] => if only = deep then [only, []] else [deep, only, []]
  | _ => segments

/-- Segments with their end made explicit and runs of `**` collapsed. -/
def settled (segments : List Segment) : List Segment :=
  collapse (segments.dropLast ++ segments.getLast?.toList.map fun last ↦
    if last = [] then deep else last)

theorem normalize_eq (segments : List Segment) : normalize segments = settled (placed segments) :=
  rfl

theorem collapse_cons_of_ne {segment : Segment} (h : segment ≠ deep) (rest : List Segment) :
    collapse (segment :: rest) = segment :: collapse rest := by
  cases rest with
  | nil => rfl
  | cons next rest => rw [collapse]; simp [h]

theorem collapse_append {front : List Segment} (h : ∀ segment ∈ front, segment ≠ deep)
    (rest : List Segment) : collapse (front ++ rest) = front ++ collapse rest := by
  induction front with
  | nil => rfl
  | cons segment front ih =>
    obtain ⟨hsegment, hfront⟩ := List.forall_mem_cons.mp h
    rw [List.cons_append, collapse_cons_of_ne hsegment, ih hfront, List.cons_append]

/-- A `**` that is left is not followed by another one. -/
theorem head?_of_collapse_deep {segments rest : List Segment}
    (h : collapse segments = deep :: rest) : rest.head? ≠ some deep := by
  fun_induction collapse segments with
  | case1 => cases h
  | case2 segment =>
    obtain ⟨-, rfl⟩ := List.cons.inj h
    simp
  | case3 a b others hab ih => exact ih h
  | case4 a b others hab ih =>
    obtain ⟨rfl, rfl⟩ := List.cons.inj h
    have hb : b ≠ deep := by simpa using hab
    rw [collapse_cons_of_ne hb]
    simpa using hb

theorem settled_append {front : List Segment} (h : ∀ segment ∈ front, segment ≠ deep)
    {rest : List Segment} (hrest : rest ≠ []) :
    settled (front ++ rest) = front ++ settled rest := by
  rw [settled, List.dropLast_append_of_ne_nil hrest,
    List.getLast?_append_of_ne_nil _ hrest, List.append_assoc, collapse_append h, settled]

theorem collapse_ne_nil {segments : List Segment} (h : segments ≠ []) : collapse segments ≠ [] := by
  fun_induction collapse segments with
  | case1 => exact absurd rfl h
  | case2 segment => simp
  | case3 a b others hab ih => exact ih (List.cons_ne_nil _ _)
  | case4 a b others hab ih => exact List.cons_ne_nil _ _

theorem settled_ne_nil {segments : List Segment} (h : segments ≠ []) : settled segments ≠ [] := by
  refine collapse_ne_nil fun hnil ↦ ?_
  simp [h] at hnil

/-! ### Items of segments -/

/-- The items of a slash, if there is one. -/
def slashItems (slash : Bool) : List Item := if slash then [.char '/'] else []

/-- What the items of a first segment and of the ones after it are made of. -/
theorem itemsOf_cons_eq_ok {slash : Bool} {segment : Segment} {rest : List Segment}
    {items : List Item} (h : itemsOf slash (segment :: rest) = .ok items) :
    (segment = deep ∧ rest = [] ∧ items = [.char '/']) ∨
    (segment = deep ∧ rest ≠ [] ∧
      ∃ others, itemsOf true rest = .ok others ∧ items = .between :: others) ∨
    (segment ≠ deep ∧ ∃ others, items = slashItems slash ++ others) := by
  rw [itemsOf] at h
  by_cases hdeep : segment = deep
  · rw [if_pos hdeep] at h
    by_cases hrest : rest = []
    · rw [if_pos (by simpa using hrest)] at h
      exact Or.inl ⟨hdeep, hrest, (Except.ok.inj h).symm⟩
    · rw [if_neg (by simpa using hrest)] at h
      cases hothers : itemsOf true rest with
      | error defect => rw [hothers] at h; cases h
      | ok others =>
        rw [hothers] at h
        exact Or.inr (Or.inl ⟨hdeep, hrest, others, rfl, (Except.ok.inj h).symm⟩)
  · rw [if_neg hdeep] at h
    cases hown : segmentItems segment with
    | error defect => rw [hown] at h; cases h
    | ok own =>
      rw [hown] at h
      cases hothers : itemsOf true rest with
      | error defect => rw [hothers] at h; cases h
      | ok others =>
        rw [hothers] at h
        refine Or.inr (Or.inr ⟨hdeep, own ++ (if rest.isEmpty then [.stop] else []) ++ others, ?_⟩)
        simp [← Except.ok.inj h, slashItems]

/-- What follows the first segments of a pattern begins with a slash. -/
theorem head?_of_itemsMatch {segments : List Segment} (hne : segments ≠ []) {items : List Item}
    (hitems : itemsOf true segments = .ok items) {path : List Char}
    (h : itemsMatch items path = true) : path.head? = some '/' := by
  induction segments generalizing items path with
  | nil => exact absurd rfl hne
  | cons segment rest ih =>
    rcases itemsOf_cons_eq_ok hitems with ⟨-, -, rfl⟩ | ⟨-, hrest, others, hothers, rfl⟩ |
      ⟨-, others, rfl⟩
    · obtain ⟨left, rfl, -⟩ := (itemsMatch_char '/').mp h
      rfl
    · -- a path that does not begin with a slash is left whole by directories between two parts
      by_contra hhead
      rw [itemsMatch_between_of_head? hhead] at h
      exact hhead (ih hrest hothers h)
    · obtain ⟨left, rfl, -⟩ := (itemsMatch_char '/').mp h
      rfl

/-- Literal segments stand for themselves, with slashes between them. -/
theorem itemsOf_append {front : List Segment} (hne : front ≠ [])
    (hfront : ∀ segment ∈ front, IsLiteral segment) {rest : List Segment} (hrest : rest ≠ [])
    (slash : Bool) :
    itemsOf slash (front ++ rest) = (itemsOf true rest).map fun others ↦
      slashItems slash ++ (['/'].intercalate front).map .char ++ others := by
  induction front generalizing slash with
  | nil => exact absurd rfl hne
  | cons segment front ih =>
    obtain ⟨hsegment, hfront⟩ := List.forall_mem_cons.mp hfront
    have hlast : (front ++ rest).isEmpty = false := by simp [hrest]
    rw [List.cons_append, itemsOf, if_neg hsegment.ne_deep, segmentItems_of_isLiteral hsegment,
      hlast]
    cases front with
    | nil =>
      rw [List.nil_append]
      cases itemsOf true rest <;> simp [Except.map, slashItems]
    | cons next front =>
      rw [ih (List.cons_ne_nil _ _) hfront true, List.intercalate_cons_cons]
      cases itemsOf true rest <;> simp [Except.map, slashItems]

/-- A slash comes before the items of segments that do not begin with `**`. -/
theorem itemsOf_true {segments : List Segment} (hne : segments ≠ [])
    (hhead : segments.head? ≠ some deep) :
    itemsOf true segments = (itemsOf false segments).map (.char '/' :: ·) := by
  obtain ⟨segment, rest, rfl⟩ := List.exists_cons_of_ne_nil hne
  have hsegment : segment ≠ deep := by simpa using hhead
  rw [itemsOf, itemsOf, if_neg hsegment, if_neg hsegment]
  cases segmentItems segment with
  | error defect => rfl
  | ok items => cases itemsOf true rest <;> simp [Except.map]

end TagScope.Ignore
