import TagScope.Document
import TagScope.Edit

/-!
# Encoded text is read back as it was

The machine that reads UTF-8 turns the encoding of a text into the characters of the text, one chunk
each (`chunks_encode`). So the two countings of a document meet: where a text is cut in characters,
its encoding is cut in bytes, and `Bytes.charsBefore` takes the second place to the first
(`charsBefore_encode`).
-/

set_option autoImplicit false

namespace TagScope

namespace Utf8

theorem toNat_ofNat_of_lt {n : Nat} (h : n < 256) : (UInt8.ofNat n).toNat = n := by
  rw [UInt8.toNat_ofNat']
  exact Nat.mod_eq_of_lt h

theorem chunksFrom_cons (state : Option Pending) (b : UInt8) (rest : Bytes) :
    chunksFrom state (b :: rest) = (step state b).1 ++ chunksFrom (step state b).2 rest := by
  cases state with
  | none => rfl
  | some p => rfl

/-- A byte that continues a character and is not its last. -/
theorem chunksFrom_push {p : Pending} {n : Nat} (howed : 1 < p.owed) (hlow : p.low ≤ n)
    (hhigh : n ≤ p.high) (hn : n < 256) (rest : Bytes) :
    chunksFrom (some p) (UInt8.ofNat n :: rest) =
      chunksFrom (some (p.push (UInt8.ofNat n))) rest := by
  have haccepts : p.accepts (UInt8.ofNat n) = true := by
    simp [Pending.accepts, toNat_ofNat_of_lt hn, hlow, hhigh]
  rw [chunksFrom_cons, step, if_pos haccepts, if_neg (by omega)]
  rfl

/-- The last byte of a character. -/
theorem chunksFrom_last {p : Pending} {n : Nat} (howed : p.owed ≤ 1) (hlow : p.low ≤ n)
    (hhigh : n ≤ p.high) (hn : n < 256) (rest : Bytes) :
    chunksFrom (some p) (UInt8.ofNat n :: rest) =
      .char (Char.ofNat (p.value * 64 + (n - 0x80))) :: chunksFrom none rest := by
  have haccepts : p.accepts (UInt8.ofNat n) = true := by
    simp [Pending.accepts, toNat_ofNat_of_lt hn, hlow, hhigh]
  rw [chunksFrom_cons, step, if_pos haccepts, if_pos howed]
  simp [Pending.push, toNat_ofNat_of_lt hn]

/-- What is pending after the first byte of a character of three bytes. The second byte may not
begin an overlong form or a surrogate. -/
def afterThree (n : Nat) : Pending :=
  ⟨[UInt8.ofNat (0xE0 + n)], n, 2, if n = 0 then 0xA0 else 0x80, if n = 13 then 0x9F else 0xBF⟩

/-- What is pending after the first byte of a character of four bytes. The second byte may not
begin an overlong form or go beyond the last plane. -/
def afterFour (n : Nat) : Pending :=
  ⟨[UInt8.ofNat (0xF0 + n)], n, 3, if n = 0 then 0x90 else 0x80, if n = 4 then 0x8F else 0xBF⟩

theorem start_two {n : Nat} (hlow : 2 ≤ n) (hhigh : n < 32) :
    start (UInt8.ofNat (0xC0 + n)) =
      ([], some ⟨[UInt8.ofNat (0xC0 + n)], n, 1, 0x80, 0xBF⟩) := by
  simp only [start, toNat_ofNat_of_lt (show 0xC0 + n < 256 by omega)]
  rw [if_neg (by omega), if_neg (by omega), if_pos (by omega), Nat.add_sub_cancel_left]

theorem start_three {n : Nat} (hhigh : n < 16) :
    start (UInt8.ofNat (0xE0 + n)) = ([], some (afterThree n)) := by
  simp only [start, toNat_ofNat_of_lt (show 0xE0 + n < 256 by omega), afterThree]
  rw [if_neg (by omega), if_neg (by omega), if_neg (by omega)]
  by_cases hzero : n = 0
  · simp [hzero]
  · rw [if_neg (by omega), if_neg hzero]
    by_cases hsurrogate : n = 13
    · simp [hsurrogate]
    · rw [if_neg (by omega), if_pos (by omega), if_neg hsurrogate, Nat.add_sub_cancel_left]

theorem start_four {n : Nat} (hhigh : n < 5) :
    start (UInt8.ofNat (0xF0 + n)) = ([], some (afterFour n)) := by
  simp only [start, toNat_ofNat_of_lt (show 0xF0 + n < 256 by omega), afterFour]
  rw [if_neg (by omega), if_neg (by omega), if_neg (by omega), if_neg (by omega),
    if_neg (by omega), if_neg (by omega)]
  by_cases hzero : n = 0
  · simp [hzero]
  · rw [if_neg (by omega), if_neg hzero]
    by_cases hlast : n = 4
    · simp [hlast]
    · rw [if_pos (by omega), if_neg hlast, Nat.add_sub_cancel_left]

section Widths

variable {n : Nat} (rest : Bytes)

theorem chunksFrom_two (hlow : 0x80 ≤ n) (hhigh : n < 0x800) :
    chunksFrom none (UInt8.ofNat (0xC0 + n / 64) :: UInt8.ofNat (0x80 + n % 64) :: rest) =
      .char (Char.ofNat n) :: chunksFrom none rest := by
  rw [chunksFrom_cons, step, start_two (by omega) (by omega), List.nil_append,
    chunksFrom_last (by simp) (by simp) (by simp; omega) (by omega)]
  have hvalue : n / 64 * 64 + (0x80 + n % 64 - 0x80) = n := by omega
  rw [hvalue]

theorem chunksFrom_three (hlow : 0x800 ≤ n) (hhigh : n < 0x10000)
    (hsurrogate : n < 0xD800 ∨ 0xDFFF < n) :
    chunksFrom none (UInt8.ofNat (0xE0 + n / 4096) :: UInt8.ofNat (0x80 + n / 64 % 64) ::
        UInt8.ofNat (0x80 + n % 64) :: rest) = .char (Char.ofNat n) :: chunksFrom none rest := by
  rw [chunksFrom_cons, step, start_three (by omega), List.nil_append,
    chunksFrom_push (by simp [afterThree]) (by simp only [afterThree]; split <;> omega)
      (by simp only [afterThree]; split <;> omega) (by omega),
    chunksFrom_last (by simp [afterThree, Pending.push]) (by simp [Pending.push])
      (by simp only [Pending.push]; omega) (by omega)]
  have hvalue : (n / 4096 * 64 + (0x80 + n / 64 % 64 - 0x80)) * 64 +
      (0x80 + n % 64 - 0x80) = n := by
    omega
  simp only [Pending.push, afterThree, toNat_ofNat_of_lt (show 0x80 + n / 64 % 64 < 256 by omega)]
  rw [hvalue]

theorem chunksFrom_four (hlow : 0x10000 ≤ n) (hhigh : n < 0x110000) :
    chunksFrom none (UInt8.ofNat (0xF0 + n / 262144) :: UInt8.ofNat (0x80 + n / 4096 % 64) ::
        UInt8.ofNat (0x80 + n / 64 % 64) :: UInt8.ofNat (0x80 + n % 64) :: rest) =
      .char (Char.ofNat n) :: chunksFrom none rest := by
  rw [chunksFrom_cons, step, start_four (by omega), List.nil_append,
    chunksFrom_push (by simp [afterFour]) (by simp only [afterFour]; split <;> omega)
      (by simp only [afterFour]; split <;> omega) (by omega),
    chunksFrom_push (by simp [afterFour, Pending.push]) (by simp [Pending.push])
      (by simp only [Pending.push]; omega) (by omega),
    chunksFrom_last (by simp [afterFour, Pending.push]) (by simp [Pending.push])
      (by simp only [Pending.push]; omega) (by omega)]
  have hvalue : ((n / 262144 * 64 + (0x80 + n / 4096 % 64 - 0x80)) * 64 +
      (0x80 + n / 64 % 64 - 0x80)) * 64 + (0x80 + n % 64 - 0x80) = n := by
    omega
  simp only [Pending.push, afterFour, toNat_ofNat_of_lt (show 0x80 + n / 64 % 64 < 256 by omega),
    toNat_ofNat_of_lt (show 0x80 + n / 4096 % 64 < 256 by omega)]
  rw [hvalue]

end Widths

/-- The step of reading back an encoding. -/
theorem chunksFrom_encodeChar (c : Char) (rest : Bytes) :
    chunksFrom none (encodeChar c ++ rest) = .char c :: chunksFrom none rest := by
  have hvalid : c.toNat < 0xD800 ∨ 0xDFFF < c.toNat ∧ c.toNat < 0x110000 := c.valid
  rw [encodeChar]
  by_cases hone : c.toNat < 0x80
  · rw [if_pos hone, List.singleton_append, chunksFrom_cons]
    simp [step, start, toNat_ofNat_of_lt (show c.toNat < 256 by omega), hone]
  rw [if_neg hone]
  by_cases htwo : c.toNat < 0x800
  · rw [if_pos htwo]
    exact (chunksFrom_two rest (by omega) htwo).trans (by rw [Char.ofNat_toNat])
  rw [if_neg htwo]
  by_cases hthree : c.toNat < 0x10000
  · rw [if_pos hthree]
    exact (chunksFrom_three rest (by omega) hthree (by omega)).trans (by rw [Char.ofNat_toNat])
  · rw [if_neg hthree]
    exact (chunksFrom_four rest (by omega) (by omega)).trans (by rw [Char.ofNat_toNat])

theorem encode_cons (c : Char) (text : List Char) :
    encode (c :: text) = encodeChar c ++ encode text :=
  List.flatMap_cons

theorem encode_append (a b : List Char) : encode (a ++ b) = encode a ++ encode b :=
  List.flatMap_append

/-- An encoding is read back as the characters it encodes. -/
theorem chunks_encode (text : List Char) : chunks (encode text) = text.map .char := by
  unfold chunks
  induction text with
  | nil => rfl
  | cons c text ih => rw [encode_cons, chunksFrom_encodeChar, ih, List.map_cons]

theorem charCount_encode (text : List Char) : charCount (encode text) = text.length := by
  rw [charCount, chunks_encode, List.length_map]

theorem decodeDropping_encode (text : List Char) : decodeDropping (encode text) = text := by
  rw [decodeDropping, chunks_encode, List.filterMap_map]
  exact List.filterMap_some

theorem strictFrom_map_char (position : Nat) (text : List Char) :
    strictFrom position (text.map .char) = .ok text := by
  induction text generalizing position with
  | nil => rfl
  | cons c text ih =>
    rw [List.map_cons, strictFrom, ih]
    rfl

theorem decode_encode (text : List Char) : decode (encode text) = .ok text := by
  rw [decode, chunks_encode, strictFrom_map_char]

end Utf8

open Utf8 (encode encode_append charCount_encode)

/-- The characters before the place where an encoded text goes on. -/
theorem Bytes.charsBefore_encode (front back : List Char) :
    Bytes.charsBefore (encode (front ++ back)) ((encode front).length : Nat) = front.length := by
  rw [Bytes.charsBefore, Slice.upTo, Slice.clamp_natCast, encode_append, List.length_append,
    Nat.min_eq_left (by omega), List.take_left, charCount_encode]

namespace Document

variable {doc : Document} {front middle back : List Char} {n : Node}

/-- The bytes of a node that spans the middle part of a text. -/
theorem bytesOf_of_span (hcontent : doc.content = encode (front ++ middle ++ back))
    (hstart : n.start = (encode front).length)
    (hstop : n.stop = (encode (front ++ middle)).length) : doc.bytesOf n = encode middle := by
  rw [bytesOf, hcontent, hstart, hstop, encode_append (front ++ middle), List.take_left,
    encode_append, List.drop_left]

end Document

/-- An insertion at the place where a text goes on. -/
theorem Edit.apply_insertion (front back : List Char) (text : String) :
    (Edit.insertion front.length text).apply (front ++ back) = front ++ text.toList ++ back := by
  simp [Edit.apply, Edit.insertion, Slice.splice, Slice.upTo, Slice.after]

end TagScope
