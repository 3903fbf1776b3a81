import Mathlib.Data.List.Basic
import TagScope.Ignore.Item

/-!
# What items match

An item is given by the rests that it can leave of a path. Here these rests are characterized by
what was consumed: characters that are no slashes (`mem_runRests`), whole directories
(`mem_directoryRests`), or anything without a line feed (`mem_properRests`).

Characters at the beginning of a pattern consume themselves (`itemsMatch_chars`). Directories
between two parts, followed by a slash, are the same as leading directories after that slash
(`itemsMatch_between`): this is what carries a pattern for any depth from one directory to
another.
-/

set_option autoImplicit false

namespace TagScope.Ignore

/-! ### Rests -/

variable {path rest : List Char} {items : List Item}

theorem mem_runRests : rest ∈ runRests path ↔ ∃ front, '/' ∉ front ∧ path = front ++ rest := by
  induction path with
  | nil =>
    constructor
    · intro h
      exact ⟨[], List.not_mem_nil, (List.mem_singleton.mp h).symm⟩
    · rintro ⟨front, -, h⟩
      simp [runRests, (List.append_eq_nil_iff.mp h.symm).2]
  | cons c path ih =>
    rw [runRests, List.mem_cons]
    constructor
    · rintro (rfl | h)
      · exact ⟨[], by simp, rfl⟩
      · split_ifs at h with hc
        · simp at h
        · obtain ⟨front, hfront, rfl⟩ := ih.mp h
          exact ⟨c :: front, by simpa [hfront] using Ne.symm hc, rfl⟩
    · rintro ⟨front, hfront, h⟩
      cases front with
      | nil => exact Or.inl h.symm
      | cons d front =>
        obtain ⟨rfl, rfl⟩ := List.cons.inj h
        obtain ⟨hc, hfront⟩ := not_or.mp (mt List.mem_cons.mpr hfront)
        rw [if_neg (Ne.symm hc)]
        exact Or.inr (ih.mpr ⟨front, hfront, rfl⟩)

theorem mem_directoryRests_true :
    rest ∈ directoryRests true path ↔ ∃ front, '\n' ∉ front ∧ path = front ++ '/' :: rest := by
  induction path with
  | nil => simp [directoryRests]
  | cons c path ih =>
    rw [directoryRests, List.mem_append, Bool.true_and]
    constructor
    · rintro (h | h)
      · by_cases hc : c = '/'
        · simp only [hc, decide_true, if_true, List.mem_singleton] at h
          exact ⟨[], by simp, by rw [hc, h, List.nil_append]⟩
        · simp [hc] at h
      · split_ifs at h with hc
        · simp at h
        · obtain ⟨front, hfront, rfl⟩ := ih.mp h
          exact ⟨c :: front, by simpa [hfront] using Ne.symm hc, rfl⟩
    · rintro ⟨front, hfront, h⟩
      cases front with
      | nil =>
        obtain ⟨rfl, rfl⟩ := List.cons.inj h
        exact Or.inl (by simp)
      | cons d front =>
        obtain ⟨rfl, rfl⟩ := List.cons.inj h
        obtain ⟨hc, hfront⟩ := not_or.mp (mt List.mem_cons.mpr hfront)
        rw [if_neg (Ne.symm hc)]
        exact Or.inr (ih.mpr ⟨front, hfront, rfl⟩)

theorem mem_directoryRests :
    rest ∈ directoryRests false path ↔
      ∃ front, front ≠ [] ∧ '\n' ∉ front ∧ path = front ++ '/' :: rest := by
  cases path with
  | nil => simp [directoryRests]
  | cons c path =>
    rw [directoryRests, Bool.false_and, if_neg Bool.false_ne_true, List.nil_append]
    constructor
    · intro h
      split_ifs at h with hc
      · simp at h
      · obtain ⟨front, hfront, rfl⟩ := mem_directoryRests_true.mp h
        exact ⟨c :: front, by simp, by simpa [hfront] using Ne.symm hc, rfl⟩
    · rintro ⟨front, hne, hfront, h⟩
      obtain ⟨d, front, rfl⟩ := List.exists_cons_of_ne_nil hne
      obtain ⟨rfl, rfl⟩ := List.cons.inj h
      obtain ⟨hc, hfront⟩ := not_or.mp (mt List.mem_cons.mpr hfront)
      rw [if_neg (Ne.symm hc)]
      exact mem_directoryRests_true.mpr ⟨front, hfront, rfl⟩

theorem mem_properRests :
    rest ∈ properRests path ↔ ∃ front, front ≠ [] ∧ '\n' ∉ front ∧ path = front ++ rest := by
  induction path with
  | nil => simp [properRests]
  | cons c path ih =>
    rw [properRests]
    constructor
    · intro h
      split_ifs at h with hc
      · simp at h
      rcases List.mem_cons.mp h with rfl | h
      · exact ⟨[c], by simp, by simpa using Ne.symm hc, rfl⟩
      · obtain ⟨front, -, hfront, rfl⟩ := ih.mp h
        exact ⟨c :: front, by simp, by simpa [hfront] using Ne.symm hc, rfl⟩
    · rintro ⟨front, hne, hfront, h⟩
      obtain ⟨d, front, rfl⟩ := List.exists_cons_of_ne_nil hne
      obtain ⟨rfl, rfl⟩ := List.cons.inj h
      obtain ⟨hc, hfront⟩ := not_or.mp (mt List.mem_cons.mpr hfront)
      rw [if_neg (Ne.symm hc), List.mem_cons]
      cases front with
      | nil => exact Or.inl rfl
      | cons d front => exact Or.inr (ih.mpr ⟨d :: front, by simp, hfront, rfl⟩)

/-! ### Items in turn -/

theorem itemsMatch_cons (item : Item) :
    itemsMatch (item :: items) path = true ↔
      ∃ rest ∈ item.rests path, itemsMatch items rest = true := by
  rw [itemsMatch, List.any_eq_true]

theorem itemsMatch_char (c : Char) :
    itemsMatch (.char c :: items) path = true ↔
      ∃ rest, path = c :: rest ∧ itemsMatch items rest = true := by
  rw [itemsMatch_cons]
  cases path with
  | nil => simp [Item.rests]
  | cons d path =>
    by_cases hc : c = d
    · simp [Item.rests, hc]
    · simp [Item.rests, hc, Ne.symm hc]

@[simp] theorem itemsMatch_char_self (c : Char) :
    itemsMatch (.char c :: items) (c :: path) = itemsMatch items path := by
  rw [Bool.eq_iff_iff, itemsMatch_char]
  simp

/-- Characters consume themselves. -/
theorem itemsMatch_chars (text : List Char) :
    itemsMatch (text.map .char ++ items) path = true ↔
      ∃ rest, path = text ++ rest ∧ itemsMatch items rest = true := by
  induction text generalizing path with
  | nil => simp
  | cons c text ih =>
    rw [List.map_cons, List.cons_append, itemsMatch_char]
    constructor
    · rintro ⟨_, rfl, htext⟩
      obtain ⟨rest, rfl, h⟩ := ih.mp htext
      exact ⟨rest, rfl, h⟩
    · rintro ⟨rest, rfl, h⟩
      exact ⟨text ++ rest, rfl, ih.mpr ⟨rest, rfl, h⟩⟩

theorem itemsMatch_chars_self (text : List Char) :
    itemsMatch (text.map .char ++ items) (text ++ rest) = itemsMatch items rest := by
  rw [Bool.eq_iff_iff, itemsMatch_chars]
  simp

theorem itemsMatch_leading :
    itemsMatch (.leading :: items) path = true ↔
      itemsMatch items path = true ∨
        ∃ front rest, front ≠ [] ∧ '\n' ∉ front ∧ path = front ++ '/' :: rest ∧
          itemsMatch items rest = true := by
  rw [itemsMatch_cons, Item.rests]
  simp only [List.mem_cons, mem_directoryRests]
  constructor
  · rintro ⟨rest, rfl | ⟨front, hne, hfront, hpath⟩, h⟩
    · exact Or.inl h
    · exact Or.inr ⟨front, rest, hne, hfront, hpath, h⟩
  · rintro (h | ⟨front, rest, hne, hfront, hpath, h⟩)
    · exact ⟨path, Or.inl rfl, h⟩
    · exact ⟨rest, Or.inr ⟨front, hne, hfront, hpath⟩, h⟩

/-- Directories between two parts can only be passed where a slash comes next. -/
theorem itemsMatch_between_of_head? (h : path.head? ≠ some '/') :
    itemsMatch (.between :: items) path = itemsMatch items path := by
  cases path with
  | nil => simp [itemsMatch, Item.rests]
  | cons c path =>
    have hc : c ≠ '/' := fun heq ↦ h (by rw [heq]; rfl)
    simp [itemsMatch, Item.rests, hc]

/-- Directories between two parts are leading directories of what follows the slash. -/
theorem itemsMatch_between :
    itemsMatch (.between :: .char '/' :: items) ('/' :: path) =
      itemsMatch (.leading :: items) path := by
  rw [Bool.eq_iff_iff, itemsMatch_leading, itemsMatch_cons, Item.rests]
  simp only [List.mem_cons, mem_properRests, itemsMatch_char]
  constructor
  · rintro ⟨_, rfl | ⟨front, hne, hfront, rfl⟩, rest, hrest, h⟩
    · obtain rfl := (List.cons.inj hrest).2
      exact Or.inl h
    · exact Or.inr ⟨front, rest, hne, hfront, by rw [hrest], h⟩
  · rintro (h | ⟨front, rest, hne, hfront, rfl, h⟩)
    · exact ⟨'/' :: path, Or.inl rfl, path, rfl, h⟩
    · exact ⟨'/' :: rest, Or.inr ⟨front, hne, hfront, rfl⟩, rest, rfl, h⟩

theorem itemsMatch_name :
    itemsMatch (.name :: items) path = true ↔
      ∃ front rest, front ≠ [] ∧ '/' ∉ front ∧ path = front ++ rest ∧
        itemsMatch items rest = true := by
  rw [itemsMatch_cons]
  cases path with
  | nil => simp [Item.rests]
  | cons c path =>
    by_cases hc : c = '/'
    · constructor
      · simp [Item.rests, hc]
      · rintro ⟨front, rest, hne, hfront, hpath, -⟩
        obtain ⟨d, front, rfl⟩ := List.exists_cons_of_ne_nil hne
        obtain ⟨rfl, -⟩ := List.cons.inj hpath
        exact absurd (by rw [hc]; exact List.mem_cons_self) hfront
    · rw [Item.rests, if_neg hc]
      simp only [mem_runRests]
      constructor
      · rintro ⟨rest, ⟨front, hfront, rfl⟩, h⟩
        exact ⟨c :: front, rest, by simp, by simpa [hfront] using Ne.symm hc, rfl, h⟩
      · rintro ⟨front, rest, hne, hfront, hpath, h⟩
        obtain ⟨d, front, rfl⟩ := List.exists_cons_of_ne_nil hne
        obtain ⟨rfl, rfl⟩ := List.cons.inj hpath
        exact ⟨rest, ⟨front, fun hmem ↦ hfront (List.mem_cons_of_mem _ hmem), rfl⟩, h⟩

end TagScope.Ignore
