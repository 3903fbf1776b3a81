import TagScope.Proofs.Text.Columns

/-!
# Characters before every byte

One more byte before an offset means at most one more character, whatever the bytes are
(`charsBefore_succ`). Where they are the encoding of a text, a character counts from its first byte
on, since one byte of it is read as one character and so are all of them
(`charCount_take_encodeChar`). So the characters before an offset are those whose encodings start
before it (`charCount_take_encode`).
-/

set_option autoImplicit false

namespace TagScope

namespace Utf8

/-- The number of characters of a text whose encodings start before an offset. -/
def startsBefore (text : List Char) (offset : Nat) : Nat :=
  (List.range text.length).countP fun k ↦ decide ((encode (text.take k)).length < offset)

/-- The first character starts at the beginning, and the others as many bytes later as it has. -/
theorem startsBefore_cons (c : Char) (text : List Char) (offset : Nat) :
    startsBefore (c :: text) offset =
      (if 0 < offset then 1 else 0) + startsBefore text (offset - (encodeChar c).length) := by
  have hshift : ∀ k, decide ((encode ((c :: text).take (k + 1))).length < offset) =
      decide ((encode (text.take k)).length < offset - (encodeChar c).length) := by
    intro k
    rw [List.take_succ_cons, encode_cons, List.length_append, decide_eq_decide]
    omega
  rw [startsBefore, List.length_cons, List.range_succ_eq_map, List.countP_cons, List.countP_map,
    Nat.add_comm, startsBefore]
  congr 1
  · simp [encode]
  · exact List.countP_congr fun k _ ↦ by rw [← hshift]; rfl

theorem charCount_encodeChar_append (c : Char) (rest : Bytes) :
    charCount (encodeChar c ++ rest) = 1 + charCount rest := by
  rw [charCount, chunks, chunksFrom_encodeChar, List.length_cons, Nat.add_comm]
  rfl

theorem charCount_singleton (b : UInt8) : charCount [b] = 1 := by
  rw [charCount, chunks, chunksFrom_cons]
  exact length_chunksFrom_start b

theorem exists_encodeChar_eq_cons (c : Char) : ∃ b rest, encodeChar c = b :: rest := by
  rw [encodeChar]
  split_ifs <;> exact ⟨_, _, rfl⟩

/-- From its first byte on, a character is one character. -/
theorem charCount_take_encodeChar (c : Char) {n : Nat} (hpos : 0 < n) :
    charCount ((encodeChar c).take n) = 1 := by
  have hmono := Bytes.charsBefore_mono (encodeChar c)
  simp only [Monotone, Bytes.charsBefore_natCast] at hmono
  have hfirst : charCount ((encodeChar c).take 1) = 1 := by
    obtain ⟨b, rest, hbytes⟩ := exists_encodeChar_eq_cons c
    rw [hbytes]
    exact charCount_singleton b
  have hwhole : charCount ((encodeChar c).take (max n (encodeChar c).length)) = 1 := by
    rw [List.take_of_length_le (Nat.le_max_right _ _)]
    have hone := charCount_encodeChar_append c []
    rwa [List.append_nil] at hone
  refine Nat.le_antisymm ?_ ?_
  · rw [← hwhole]
    exact hmono (Nat.le_max_left n (encodeChar c).length)
  · rw [← hfirst]
    exact hmono (Nat.succ_le_of_lt hpos)

theorem charCount_take_encode (text : List Char) (offset : Nat) :
    charCount ((encode text).take offset) = startsBefore text offset := by
  induction text generalizing offset with
  | nil => simp [encode, startsBefore, charCount, chunks, chunksFrom]
  | cons c text ih =>
    rw [encode_cons, List.take_append, startsBefore_cons, ← ih]
    by_cases hzero : offset = 0
    · subst hzero
      simp [charCount, chunks, chunksFrom]
    have hpos : 0 < offset := Nat.pos_of_ne_zero hzero
    rw [if_pos hpos]
    by_cases hwithin : offset ≤ (encodeChar c).length
    · -- The offset lies within the first character, and no other one has started.
      rw [Nat.sub_eq_zero_of_le hwithin, List.take_zero, List.append_nil,
        charCount_take_encodeChar c hpos]
      rfl
    · rw [List.take_of_length_le (Nat.le_of_not_le hwithin), charCount_encodeChar_append]

end Utf8

namespace Bytes

open Utf8 (encode startsBefore)

theorem charsBefore_encode_take (text : List Char) {count : Nat} (h : count ≤ text.length) :
    charsBefore (encode text) (encode (text.take count)).length = count := by
  have hsplit := charsBefore_encode (text.take count) (text.drop count)
  rwa [List.take_append_drop, List.length_take, Nat.min_eq_left h] at hsplit

/-- The characters before an offset grow by at most one from byte to byte, in whatever bytes. In the
encoding of a text they are the characters whose encodings start before the offset, so where the
encoding of the first characters ends, there are as many before as these are. -/
theorem charsBefore_exact (content : Bytes) (text : List Char) :
    (∀ offset : Nat, charsBefore content offset ≤ charsBefore content (offset + 1 : Nat) ∧
      charsBefore content (offset + 1 : Nat) ≤ charsBefore content offset + 1) ∧
    (∀ offset : Nat, charsBefore (encode text) offset = startsBefore text offset) ∧
    ∀ count ≤ text.length, charsBefore (encode text) (encode (text.take count)).length = count := by
  refine ⟨charsBefore_succ content, fun offset ↦ ?_, fun count hcount ↦ ?_⟩
  · rw [charsBefore_natCast]
    exact Utf8.charCount_take_encode text offset
  · exact charsBefore_encode_take text hcount

/-- An accented letter, a sign of four bytes and a plain letter: the third starts at byte six. -/
theorem charsBefore_exact_widths :
    2 ≤ ['é', '𝄞', 'x'].length ∧ (encode (['é', '𝄞', 'x'].take 2)).length = 6 ∧
      charsBefore (encode ['é', '𝄞', 'x']) (encode (['é', '𝄞', 'x'].take 2)).length = 2 :=
  ⟨by decide, by decide, (charsBefore_exact [0xF0, 0x9F, 0x41] ['é', '𝄞', 'x']).2.2 2 (by decide)⟩

end Bytes

end TagScope
