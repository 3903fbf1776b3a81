import Mathlib.Data.List.Sort
import TagScope.Report.Diagnostic

/-!
# The order of a report

Sorting by insertion is stable: it permutes, it orders, and whatever stood in order before keeps its
order (`Stable.sorts_sort`). So elements that the order does not tell apart stay in any relation
that the list had them in (`Stable.pairwise_sort`), and deleting elements before or after sorting is
the same (`Stable.filter_sort`). The order of a report is total and transitive, so this holds of
reports.
-/

set_option autoImplicit false

namespace TagScope

namespace Stable

variable {α : Type}

/-- A list is the stable sort of another: a permutation in order, in which all that stood in order
before still does. -/
structure Sorts (le : α → α → Bool) (l sorted : List α) : Prop where
  perm : sorted.Perm l
  pairwise : sorted.Pairwise fun a b ↦ le a b = true
  stable : ∀ c : List α, c.Pairwise (fun a b ↦ le a b = true) → c.Sublist l → c.Sublist sorted

theorem insert_eq_orderedInsert (le : α → α → Bool) (a : α) (l : List α) :
    insert le a l = l.orderedInsert (fun a b ↦ le a b = true) a := by
  induction l with
  | nil => rfl
  | cons b rest ih => rw [insert, List.orderedInsert, ih]

theorem sort_eq_insertionSort (le : α → α → Bool) (l : List α) :
    sort le l = l.insertionSort fun a b ↦ le a b = true := by
  induction l with
  | nil => rfl
  | cons a rest ih => rw [sort, List.insertionSort_cons, ih, insert_eq_orderedInsert]

theorem sorts_sort {le : α → α → Bool} (htotal : ∀ a b, le a b = true ∨ le b a = true)
    (htrans : ∀ a b c, le a b = true → le b c = true → le a c = true) (l : List α) :
    Sorts le l (sort le l) := by
  have : Std.Total fun a b ↦ le a b = true := ⟨htotal⟩
  have : IsTrans α fun a b ↦ le a b = true := ⟨htrans⟩
  rw [sort_eq_insertionSort]
  exact ⟨List.perm_insertionSort _ l, List.pairwise_insertionSort _ l,
    fun c hc hsub ↦ List.sublist_insertionSort hc hsub⟩

/-- Sorting by a key sorts the keys. -/
theorem map_sort {β : Type} (key : α → β) (le : β → β → Bool) (l : List α) :
    (sort (fun a b ↦ le (key a) (key b)) l).map key = sort le (l.map key) := by
  rw [sort_eq_insertionSort, sort_eq_insertionSort]
  exact List.map_insertionSort _ _ key l fun _ _ _ _ ↦ Iff.rfl

theorem mem_insert {le : α → α → Bool} {a b : α} {l : List α} :
    b ∈ insert le a l ↔ b = a ∨ b ∈ l := by
  rw [insert_eq_orderedInsert, List.mem_orderedInsert]

theorem pairwise_insert {le : α → α → Bool} (htotal : ∀ a b, le a b = true ∨ le b a = true)
    (htrans : ∀ a b c, le a b = true → le b c = true → le a c = true) {R : α → α → Prop} {a : α}
    {l : List α} (hl : l.Pairwise fun b c ↦ le b c = true ∧ (le c b = true → R b c))
    (ha : ∀ b ∈ l, R a b) :
    (insert le a l).Pairwise fun b c ↦ le b c = true ∧ (le c b = true → R b c) := by
  induction l with
  | nil => exact List.pairwise_singleton _ _
  | cons b rest ih =>
    obtain ⟨hb, hrest⟩ := List.pairwise_cons.mp hl
    rw [insert]
    split_ifs with hle
    · refine List.pairwise_cons.mpr ⟨fun c hc ↦ ⟨?_, fun _ ↦ ha c hc⟩, hl⟩
      rcases List.mem_cons.mp hc with rfl | hc
      · exact hle
      · exact htrans a b c hle (hb c hc).1
    · refine List.pairwise_cons.mpr ⟨fun c hc ↦ ?_, ih hrest fun c hc ↦
        ha c (List.mem_cons_of_mem _ hc)⟩
      rcases mem_insert.mp hc with rfl | hc
      · exact ⟨(htotal b c).resolve_right hle, fun h ↦ absurd h hle⟩
      · exact hb c hc

/-- Elements that the order does not tell apart keep the relations of the list. -/
theorem pairwise_sort {le : α → α → Bool} (htotal : ∀ a b, le a b = true ∨ le b a = true)
    (htrans : ∀ a b c, le a b = true → le b c = true → le a c = true) {R : α → α → Prop}
    {l : List α} (hl : l.Pairwise R) :
    (sort le l).Pairwise fun a b ↦ le a b = true ∧ (le b a = true → R a b) := by
  induction l with
  | nil => exact List.Pairwise.nil
  | cons a rest ih =>
    obtain ⟨ha, hrest⟩ := List.pairwise_cons.mp hl
    refine pairwise_insert htotal htrans (ih hrest) fun b hb ↦ ha b ?_
    exact (sorts_sort htotal htrans rest).perm.mem_iff.mp hb

theorem insert_of_forall {le : α → α → Bool} {a : α} {l : List α} (h : ∀ b ∈ l, le a b = true) :
    insert le a l = a :: l := by
  cases l with
  | nil => rfl
  | cons b rest => rw [insert, if_pos (h b List.mem_cons_self)]

theorem filter_insert {le : α → α → Bool}
    (htrans : ∀ a b c, le a b = true → le b c = true → le a c = true) (p : α → Bool) (a : α)
    {l : List α} (hl : l.Pairwise fun b c ↦ le b c = true) :
    (insert le a l).filter p = if p a then insert le a (l.filter p) else l.filter p := by
  induction l with
  | nil => rw [insert, List.filter_cons]; rfl
  | cons b rest ih =>
    obtain ⟨hb, hrest⟩ := List.pairwise_cons.mp hl
    rw [insert]
    by_cases hle : le a b = true
    · -- What may follow `b` may follow `a`, so `a` goes to the front of what is left.
      have hfront : ∀ c ∈ (b :: rest).filter p, le a c = true := by
        intro c hc
        rcases List.mem_cons.mp (List.mem_filter.mp hc).1 with rfl | hc
        · exact hle
        · exact htrans a b c hle (hb c hc)
      rw [if_pos hle, List.filter_cons, insert_of_forall hfront]
    · rw [if_neg hle, List.filter_cons, List.filter_cons, ih hrest]
      by_cases hpb : p b = true
      · rw [if_pos hpb, if_pos hpb, insert, if_neg hle]
        split_ifs <;> rfl
      · rw [if_neg hpb, if_neg hpb]

/-- Deleting elements before or after sorting is the same. -/
theorem filter_sort {le : α → α → Bool} (htotal : ∀ a b, le a b = true ∨ le b a = true)
    (htrans : ∀ a b c, le a b = true → le b c = true → le a c = true) (p : α → Bool)
    (l : List α) : (sort le l).filter p = sort le (l.filter p) := by
  induction l with
  | nil => rfl
  | cons a rest ih =>
    rw [sort, filter_insert htrans p a (sorts_sort htotal htrans rest).pairwise, ih,
      List.filter_cons]
    split_ifs <;> rfl

end Stable

namespace Diagnostic

theorem notAfter_iff (a b : Diagnostic) :
    notAfter a b = true ↔ a.position.line < b.position.line ∨
      a.position.line = b.position.line ∧ a.position.column ≤ b.position.column := by
  simp [notAfter]

theorem notAfter_total (a b : Diagnostic) : notAfter a b = true ∨ notAfter b a = true := by
  simp only [notAfter_iff]
  omega

theorem notAfter_trans (a b c : Diagnostic) (hab : notAfter a b = true)
    (hbc : notAfter b c = true) : notAfter a c = true := by
  simp only [notAfter_iff] at hab hbc ⊢
  omega

/-- A report is a stable sort of its diagnostics by line and column. -/
theorem sorts_report (diagnostics : List Diagnostic) :
    Stable.Sorts notAfter diagnostics (Stable.sort notAfter diagnostics) :=
  Stable.sorts_sort notAfter_total notAfter_trans diagnostics

/-- Deleting diagnostics from a report leaves the report of the others. -/
theorem filter_report (p : Diagnostic → Bool) (diagnostics : List Diagnostic) :
    (Stable.sort notAfter diagnostics).filter p =
      Stable.sort notAfter (diagnostics.filter p) :=
  Stable.filter_sort notAfter_total notAfter_trans p diagnostics

end Diagnostic

end TagScope
