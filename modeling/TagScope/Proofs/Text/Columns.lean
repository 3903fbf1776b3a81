import Mathlib.Data.List.TakeWhile
import Mathlib.Order.Monotone.Basic
import TagScope.Proofs.Text.Chunks

/-!
# Lines, columns and characters

Offsets of a content are told in two ways: as the number of characters before them, and as a line
with a column. Both read bytes that need not be a text, the one from the beginning and the other
from the beginning of the line. No character reaches across a line end, since a line end ends
whatever is pending (`decodeReplacing_newline`), so the two readings agree: the characters before an
offset are those before its line and its column (`charsBefore_eq_add_column`).

A further byte never takes a character away (`charCount_concat`), and a line end adds one. So lines
and columns, compared in this order, are in the order of the characters before them
(`line_column_le_iff`).
-/

set_option autoImplicit false

namespace TagScope

namespace Utf8

open Bytes (newline)

/-! ### Line ends -/

/-- Only bytes from 0x80 on continue what is pending. -/
def IsMidway (state : Option Pending) : Prop :=
  ∀ p ∈ state, 0x80 ≤ p.low

theorem isMidway_start (b : UInt8) : IsMidway (start b).2 := by
  intro p hp
  rcases start_cases b with ⟨chunk, hstart, -⟩ | ⟨q, hstart, -, -, hlow⟩
  · rw [hstart] at hp
    cases hp
  · rw [hstart] at hp
    rwa [← Option.some.inj hp]

theorem isMidway_step {state : Option Pending} (h : IsMidway state) (b : UInt8) :
    IsMidway (step state b).2 := by
  cases state with
  | none => exact isMidway_start b
  | some q =>
    rw [step]
    split_ifs
    · intro p hp
      cases hp
    · intro p hp
      rw [← Option.some.inj hp]
      exact Nat.le_refl _
    · exact isMidway_start b

/-- A line end is a character of its own, and what was pending is at its end. -/
theorem map_replaced_chunksFrom_newline {state : Option Pending} (h : IsMidway state)
    (back : Bytes) :
    (chunksFrom state (newline :: back)).map Chunk.replaced =
      (chunksFrom state []).map Chunk.replaced ++ '\n' :: decodeReplacing back := by
  cases state with
  | none => rfl
  | some p =>
    have hrefused : ¬ p.accepts newline = true := by
      intro haccepts
      have hle := Nat.le_trans (h p rfl) (Pending.accepts_iff.mp haccepts).1
      exact absurd hle (by decide)
    rw [chunksFrom_cons, step, if_neg hrefused]
    rfl

theorem map_replaced_chunksFrom_append_newline (front back : Bytes) :
    ∀ {state : Option Pending}, IsMidway state →
      (chunksFrom state (front ++ newline :: back)).map Chunk.replaced =
        (chunksFrom state front).map Chunk.replaced ++ '\n' :: decodeReplacing back := by
  induction front with
  | nil => intro state h; exact map_replaced_chunksFrom_newline h back
  | cons b rest ih =>
    intro state h
    rw [List.cons_append, chunksFrom_cons, chunksFrom_cons, List.map_append, List.map_append,
      ih (isMidway_step h b), List.append_assoc]

/-- Bytes are read line by line: what is ill-formed ends where its line ends. -/
theorem decodeReplacing_newline (front back : Bytes) :
    decodeReplacing (front ++ newline :: back) =
      decodeReplacing front ++ '\n' :: decodeReplacing back :=
  map_replaced_chunksFrom_append_newline front back fun _ hp ↦ nomatch hp

theorem length_decodeReplacing (bytes : Bytes) :
    (decodeReplacing bytes).length = charCount bytes :=
  List.length_map _

theorem charCount_newline (front back : Bytes) :
    charCount (front ++ newline :: back) = charCount front + 1 + charCount back := by
  rw [← length_decodeReplacing, decodeReplacing_newline, List.length_append, List.length_cons,
    length_decodeReplacing, length_decodeReplacing]
  omega

/-! ### One more byte -/

theorem length_chunksFrom_start (b : UInt8) :
    ((start b).1 ++ chunksFrom (start b).2 []).length = 1 := by
  rcases start_cases b with ⟨chunk, hstart, -⟩ | ⟨p, hstart, -⟩
  · rw [hstart]
    rfl
  · rw [hstart]
    rfl

theorem length_chunksFrom_concat (b : UInt8) (bytes : Bytes) :
    ∀ state : Option Pending,
      (chunksFrom state bytes).length ≤ (chunksFrom state (bytes ++ [b])).length ∧
        (chunksFrom state (bytes ++ [b])).length ≤ (chunksFrom state bytes).length + 1 := by
  induction bytes with
  | nil =>
    intro state
    have hstart := length_chunksFrom_start b
    rw [List.nil_append, chunksFrom_cons]
    cases state with
    | none =>
      rw [step, hstart]
      exact ⟨Nat.zero_le 1, Nat.le_refl 1⟩
    | some p =>
      rw [step]
      split_ifs
      · exact ⟨Nat.le_refl 1, Nat.le_succ 1⟩
      · exact ⟨Nat.le_refl 1, Nat.le_succ 1⟩
      · rw [List.cons_append, List.length_cons, hstart]
        exact ⟨Nat.le_succ 1, Nat.le_refl 2⟩
  | cons a rest ih =>
    intro state
    obtain ⟨hle, hge⟩ := ih (step state a).2
    rw [List.cons_append, chunksFrom_cons, chunksFrom_cons, List.length_append, List.length_append]
    omega

/-- A further byte adds at most one character and takes none away. -/
theorem charCount_concat (bytes : Bytes) (b : UInt8) :
    charCount bytes ≤ charCount (bytes ++ [b]) ∧
      charCount (bytes ++ [b]) ≤ charCount bytes + 1 :=
  length_chunksFrom_concat b bytes none

end Utf8

namespace Bytes

open Utf8 (charCount)

variable {content : Bytes}

/-! ### Characters before an offset -/

theorem charsBefore_natCast (content : Bytes) (offset : Nat) :
    charsBefore content offset = charCount (content.take offset) := by
  rw [charsBefore, Slice.upTo, Slice.clamp_natCast, ← List.take_eq_take_min]

theorem charsBefore_succ (content : Bytes) (offset : Nat) :
    charsBefore content offset ≤ charsBefore content (offset + 1 : Nat) ∧
      charsBefore content (offset + 1 : Nat) ≤ charsBefore content offset + 1 := by
  rw [charsBefore_natCast, charsBefore_natCast, List.take_add_one]
  cases content[offset]? with
  | none =>
    rw [Option.toList_none, List.append_nil]
    exact ⟨Nat.le_refl _, Nat.le_succ _⟩
  | some b => exact Utf8.charCount_concat _ b

theorem charsBefore_mono (content : Bytes) :
    Monotone fun offset : Nat ↦ charsBefore content offset :=
  monotone_nat_of_le_succ fun offset ↦ (charsBefore_succ content offset).1

/-! ### The line of an offset -/

theorem lineStart_le (content : Bytes) (offset : Nat) :
    lineStart content offset ≤ min offset content.length := by
  rw [lineStart, List.length_take]
  exact Nat.sub_le _ _

theorem length_take_lineStart (content : Bytes) (offset : Nat) :
    (content.take (lineStart content offset)).length = lineStart content offset := by
  have hle := lineStart_le content offset
  rw [List.length_take]
  omega

/-- The bytes before an offset are those before its line, which are none or end a line, and those of
its line, which end none. -/
theorem exists_line (content : Bytes) (offset : Nat) :
    ∃ line, content.take offset = content.take (lineStart content offset) ++ line ∧
      newline ∉ line ∧
      (content.take (lineStart content offset) = [] ∨
        ∃ before, content.take (lineStart content offset) = before ++ [newline]) := by
  -- read backwards, the line is what comes before the first line end
  have hsplit : content.take offset =
      ((content.take offset).reverse.dropWhile fun b ↦ b != newline).reverse ++
        ((content.take offset).reverse.takeWhile fun b ↦ b != newline).reverse := by
    rw [← List.reverse_append, List.takeWhile_append_dropWhile, List.reverse_reverse]
  have hlength : ((content.take offset).reverse.dropWhile fun b ↦ b != newline).reverse.length =
      lineStart content offset := by
    have hsum := congrArg List.length hsplit
    rw [List.length_append, List.length_reverse, List.length_reverse] at hsum
    rw [List.length_reverse, lineStart]
    omega
  have hfront : content.take (lineStart content offset) =
      ((content.take offset).reverse.dropWhile fun b ↦ b != newline).reverse := by
    have hle := lineStart_le content offset
    calc content.take (lineStart content offset)
      _ = (content.take offset).take (lineStart content offset) := by
          rw [List.take_take, Nat.min_eq_left (by omega)]
      _ = _ := congrArg (List.take _) hsplit
      _ = _ := List.take_left' hlength
  rw [hfront]
  refine ⟨_, hsplit, ?_, ?_⟩
  · intro hmem
    have hne := List.mem_takeWhile_imp (List.mem_reverse.mp hmem)
    simp at hne
  · cases hrest : (content.take offset).reverse.dropWhile fun b ↦ b != newline with
    | nil => exact Or.inl rfl
    | cons b rest =>
      have hhead := List.head_dropWhile_not (fun b ↦ b != newline)
        (l := (content.take offset).reverse) (by rw [hrest]; exact List.cons_ne_nil b rest)
      obtain rfl : b = newline := by simpa [hrest] using hhead
      exact Or.inr ⟨rest.reverse, List.reverse_cons⟩

/-- An offset starts the line of another one: it stands at the beginning or just after a line end,
and between the two no line ends. -/
structure StartsLine (content : Bytes) (start offset : Nat) : Prop where
  le : start ≤ offset
  opens : start = 0 ∨ content[start - 1]? = some newline
  unbroken : ∀ place, start ≤ place → place < offset → content[place]? ≠ some newline

theorem startsLine_lineStart (content : Bytes) (offset : Nat) :
    StartsLine content (lineStart content offset) offset := by
  obtain ⟨line, hline, hnone, hfront⟩ := exists_line content offset
  have hlength := length_take_lineStart content offset
  have hle := lineStart_le content offset
  refine ⟨by omega, ?_, ?_⟩
  · rcases hfront with hempty | ⟨before, hbefore⟩
    · rw [hempty] at hlength
      exact Or.inl hlength.symm
    · rw [hbefore, List.length_append, List.length_singleton] at hlength
      refine Or.inr ?_
      have hlast : lineStart content offset - 1 < lineStart content offset := by omega
      rw [← List.getElem?_take_of_lt hlast, hbefore, ← hlength, Nat.add_sub_cancel,
        List.getElem?_concat_length]
  · intro place hstart hplace hnewline
    rw [← List.getElem?_take_of_lt hplace, hline, List.getElem?_append_right (by omega)] at hnewline
    exact hnone (List.mem_of_getElem? hnewline)

/-- The column of an offset counts the characters of its line before it. -/
theorem column_eq (content : Bytes) (offset : Nat) :
    column content offset =
      charCount ((content.take offset).drop (lineStart content offset)) := by
  have hle := lineStart_le content offset
  have hwidth : (offset : Int) - ((offset : Int) - lineStart content offset) =
      (lineStart content offset : Nat) := by
    omega
  rw [column, charsInLast, hwidth, Slice.between, Slice.clamp_natCast, Slice.clamp_natCast,
    ← List.take_eq_take_min, Nat.min_eq_left (by omega)]

/-- The characters before an offset are those before its line and those that its column counts. -/
theorem charsBefore_eq_add_column (content : Bytes) (offset : Nat) :
    charsBefore content offset =
      charsBefore content (lineStart content offset) + column content offset := by
  obtain ⟨line, hline, -, hfront⟩ := exists_line content offset
  have hdrop : (content.take offset).drop (lineStart content offset) = line := by
    rw [hline]
    exact List.drop_left' (length_take_lineStart content offset)
  rw [charsBefore_natCast, charsBefore_natCast, column_eq, hdrop, hline]
  rcases hfront with hnone | ⟨before, hbefore⟩
  · rw [hnone]
    exact (Nat.zero_add _).symm
  · have hwhole := Utf8.charCount_newline before line
    have hends := Utf8.charCount_newline before []
    rw [hbefore, List.append_assoc, List.singleton_append, hwhole, hends]
    rfl

/-! ### The order of lines and columns -/

theorem row_mono (content : Bytes) : Monotone (row content) := by
  intro a b hab
  exact (List.take_sublist_take_left hab).count_le newline

theorem row_lineStart (content : Bytes) (offset : Nat) :
    row content (lineStart content offset) = row content offset := by
  obtain ⟨line, hline, hnone, -⟩ := exists_line content offset
  rw [row, row, hline, List.count_append, List.count_eq_zero.mpr hnone, Nat.add_zero]

/-- An offset in an earlier line has fewer characters before it. -/
theorem charsBefore_lt_of_row_lt {a b : Nat} (h : row content a < row content b) :
    charsBefore content a < charsBefore content b := by
  obtain ⟨-, -, -, hnone | ⟨before, hbefore⟩⟩ := exists_line content b
  · have hzero : row content b = 0 := by
      rw [← row_lineStart, row, hnone, List.count_nil]
    omega
  · have hlength := length_take_lineStart content b
    have hle := lineStart_le content b
    rw [hbefore, List.length_append, List.length_singleton] at hlength
    -- the line end before the line of `b` comes after `a`
    have ha : a ≤ before.length := by
      by_contra hlt
      have hrow : row content (lineStart content b) ≤ row content a :=
        row_mono content (by omega)
      rw [row_lineStart] at hrow
      omega
    have htake : content.take before.length = before := by
      have hshort : content.take before.length =
          (content.take (lineStart content b)).take before.length := by
        rw [List.take_take, Nat.min_eq_left (by omega)]
      rw [hshort, hbefore, List.take_left]
    calc charsBefore content a
      _ ≤ charsBefore content before.length := charsBefore_mono content ha
      _ = charCount before := by rw [charsBefore_natCast, htake]
      _ < charCount (before ++ [newline]) := by
          rw [Utf8.charCount_newline before []]
          omega
      _ = charsBefore content (lineStart content b) := by rw [charsBefore_natCast, hbefore]
      _ ≤ charsBefore content b := charsBefore_mono content (by omega)

theorem lineStart_eq_of_row_eq {a b : Nat} (hab : a ≤ b) (h : row content a = row content b) :
    lineStart content a = lineStart content b := by
  obtain ⟨more, hmore⟩ := List.take_prefix_take_left (l := content) hab
  have hnone : newline ∉ more := by
    rw [row, row, ← hmore, List.count_append] at h
    exact List.count_eq_zero.mp (by omega)
  have hline : ((content.take a ++ more).reverse.takeWhile fun b ↦ b != newline) =
      more.reverse ++ (content.take a).reverse.takeWhile fun b ↦ b != newline := by
    rw [List.reverse_append]
    refine List.takeWhile_append_of_pos fun b hb ↦ ?_
    simp only [bne_iff_ne]
    rintro rfl
    exact hnone (List.mem_reverse.mp hb)
  rw [lineStart, lineStart, ← hmore, hline]
  simp only [List.length_append, List.length_reverse]
  omega

/-- Lines and columns are in the order of the characters before them. -/
theorem line_column_le_iff (content : Bytes) (a b : Nat) :
    (line content a < line content b ∨
        line content a = line content b ∧ column content a ≤ column content b) ↔
      charsBefore content a ≤ charsBefore content b := by
  unfold line
  rcases Nat.lt_trichotomy (row content a) (row content b) with hlt | heq | hgt
  · have hchars := charsBefore_lt_of_row_lt hlt
    omega
  · have hstart : lineStart content a = lineStart content b := by
      rcases Nat.le_total a b with hab | hba
      · exact lineStart_eq_of_row_eq hab heq
      · exact (lineStart_eq_of_row_eq hba heq.symm).symm
    have ha := charsBefore_eq_add_column content a
    have hb := charsBefore_eq_add_column content b
    rw [hstart] at ha
    omega
  · have hchars := charsBefore_lt_of_row_lt hgt
    omega

end Bytes

end TagScope
