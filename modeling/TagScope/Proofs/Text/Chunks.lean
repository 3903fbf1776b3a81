import Mathlib.Data.List.Basic
import TagScope.Proofs.Text.Utf8

/-!
# Reading loses no byte

The machine that reads UTF-8 gives every byte to one chunk: the bytes of the chunks, one after the
other, are the bytes that were read (`flatMap_bytes_chunks`). This holds of ill-formed sequences by
definition, and of characters since a pending character is always the beginning of the encodings of
all the characters that it can become (`Pending.IsBegun`), which one byte keeps (`step_conserves`).
So a byte string that decodes is the encoding of its text (`encode_of_decode`).
-/

set_option autoImplicit false

namespace TagScope.Utf8

/-- The bytes that a chunk was read from. -/
def Chunk.bytes : Chunk → Bytes
  | .char c => encodeChar c
  | .illFormed bytes _ => bytes

/-- The bytes that were read of a pending character. -/
def heldBytes (state : Option Pending) : Bytes :=
  state.elim [] Pending.bytes

/-! ### Bytes of characters -/

theorem toNat_ofNat_of_isScalar {n : Nat} (h : n < 0xD800 ∨ 0xDFFF < n ∧ n < 0x110000) :
    (Char.ofNat n).toNat = n := by
  rw [Char.ofNat, dif_pos h]
  rfl

theorem encodeChar_one {b : UInt8} (h : b.toNat < 0x80) :
    encodeChar (Char.ofNat b.toNat) = [b] := by
  rw [encodeChar, toNat_ofNat_of_isScalar (by omega), if_pos h, UInt8.ofNat_toNat]

/-- A byte is determined by its value. -/
theorem ofNat_eq_of_eq {n : Nat} {b : UInt8} (h : n = b.toNat) : UInt8.ofNat n = b := by
  rw [h, UInt8.ofNat_toNat]

/-- A byte that can continue a character. -/
structure IsTail (b : UInt8) : Prop where
  low : 0x80 ≤ b.toNat
  high : b.toNat ≤ 0xBF

/-- The value of a character with the payload of one more byte. -/
def extend (value : Nat) (b : UInt8) : Nat :=
  value * 64 + (b.toNat - 0x80)

section Widths

variable {b c d e : UInt8} {n : Nat}

theorem encodeChar_two (hlow : 0xC2 ≤ b.toNat) (hhigh : b.toNat < 0xE0) (hc : IsTail c)
    (hn : n = extend (b.toNat - 0xC0) c) : encodeChar (Char.ofNat n) = [b, c] := by
  have hclow := hc.low
  have hchigh := hc.high
  unfold extend at hn
  rw [encodeChar, toNat_ofNat_of_isScalar (by omega), if_neg (by omega), if_pos (by omega),
    ofNat_eq_of_eq (b := b) (by omega), ofNat_eq_of_eq (b := c) (by omega)]

theorem encodeChar_three (hlow : 0xE0 ≤ b.toNat) (hhigh : b.toNat < 0xF0) (hc : IsTail c)
    (hoverlong : b.toNat = 0xE0 → 0xA0 ≤ c.toNat) (hsurrogate : b.toNat = 0xED → c.toNat ≤ 0x9F)
    (hd : IsTail d) (hn : n = extend (extend (b.toNat - 0xE0) c) d) :
    encodeChar (Char.ofNat n) = [b, c, d] := by
  have hclow := hc.low
  have hchigh := hc.high
  have hdlow := hd.low
  have hdhigh := hd.high
  unfold extend at hn
  rw [encodeChar, toNat_ofNat_of_isScalar (by omega)]
  rw [if_neg (by omega), if_neg (by omega), if_pos (by omega), ofNat_eq_of_eq (b := b) (by omega),
    ofNat_eq_of_eq (b := c) (by omega), ofNat_eq_of_eq (b := d) (by omega)]

theorem encodeChar_four (hlow : 0xF0 ≤ b.toNat) (hhigh : b.toNat < 0xF5) (hc : IsTail c)
    (hoverlong : b.toNat = 0xF0 → 0x90 ≤ c.toNat) (hbeyond : b.toNat = 0xF4 → c.toNat ≤ 0x8F)
    (hd : IsTail d) (he : IsTail e)
    (hn : n = extend (extend (extend (b.toNat - 0xF0) c) d) e) :
    encodeChar (Char.ofNat n) = [b, c, d, e] := by
  have hclow := hc.low
  have hchigh := hc.high
  have hdlow := hd.low
  have hdhigh := hd.high
  have helow := he.low
  have hehigh := he.high
  unfold extend at hn
  rw [encodeChar, toNat_ofNat_of_isScalar (by omega)]
  rw [if_neg (by omega), if_neg (by omega), if_neg (by omega), ofNat_eq_of_eq (b := b) (by omega),
    ofNat_eq_of_eq (b := c) (by omega), ofNat_eq_of_eq (b := d) (by omega),
    ofNat_eq_of_eq (b := e) (by omega)]

end Widths

/-! ### Pending characters -/

namespace Pending

/-- Whether some bytes complete a pending character. -/
structure Admits (p : Pending) (tail : Bytes) : Prop where
  length_eq : tail.length = p.owed
  head : ∀ b ∈ tail.head?, p.accepts b = true
  rest : ∀ b ∈ tail.tail, IsTail b

/-- A pending character is the beginning of every character that it can become: whichever bytes
complete it, what comes of it is encoded by all of them. -/
structure IsBegun (p : Pending) : Prop where
  owed_pos : 0 < p.owed
  encodes : ∀ tail, p.Admits tail →
    encodeChar (Char.ofNat (tail.foldl extend p.value)) = p.bytes ++ tail

variable {p : Pending} {b : UInt8}

theorem accepts_iff : p.accepts b = true ↔ p.low ≤ b.toNat ∧ b.toNat ≤ p.high := by
  simp [accepts]

/-- After the second byte of a character, every byte that continues it is taken. -/
theorem isTail_of_accepts_push {c : UInt8} (h : (p.push b).accepts c = true) : IsTail c := by
  have hbounds := accepts_iff.mp h
  exact ⟨hbounds.1, hbounds.2⟩

/-- A byte that continues a character and is not its last. -/
theorem IsBegun.push (h : p.IsBegun) (hb : p.accepts b = true) (howed : 1 < p.owed) :
    (p.push b).IsBegun where
  owed_pos := Nat.sub_pos_of_lt howed
  encodes := by
    intro tail htail
    have hadmits : p.Admits (b :: tail) := by
      refine ⟨?_, ?_, ?_⟩
      · have hlength : tail.length = p.owed - 1 := htail.length_eq
        rw [List.length_cons, hlength]
        omega
      · intro first hfirst
        rwa [← Option.some.inj hfirst]
      · intro next hnext
        rw [List.tail_cons] at hnext
        cases tail with
        | nil => simp at hnext
        | cons second others =>
          rcases List.mem_cons.mp hnext with hsecond | hothers
          · rw [hsecond]
            exact isTail_of_accepts_push (htail.head second rfl)
          · exact htail.rest next hothers
    have hvalue : (p.push b).value = extend p.value b := rfl
    have hbytes : (p.push b).bytes = p.bytes ++ [b] := rfl
    rw [hvalue, hbytes, ← List.foldl_cons, h.encodes (b :: tail) hadmits, List.append_cons]

/-- The last byte of a character. -/
theorem IsBegun.last (h : p.IsBegun) (hb : p.accepts b = true) (howed : p.owed ≤ 1) :
    encodeChar (Char.ofNat (p.push b).value) = p.bytes ++ [b] := by
  have hone : p.owed = 1 := Nat.le_antisymm howed h.owed_pos
  refine h.encodes [b] ⟨hone.symm, ?_, by simp⟩
  intro first hfirst
  rwa [← Option.some.inj hfirst]

section Leads

variable {value low high : Nat}

/-- The lead byte of a character of two bytes. -/
theorem isBegun_lead_two (hfirst : 0xC2 ≤ b.toNat) (hlast : b.toNat < 0xE0)
    (hvalue : value = b.toNat - 0xC0) (hlow : 0x80 ≤ low) (hhigh : high ≤ 0xBF) :
    (Pending.mk [b] value 1 low high).IsBegun where
  owed_pos := Nat.one_pos
  encodes := by
    intro tail htail
    obtain ⟨c, rfl⟩ := List.length_eq_one_iff.mp htail.length_eq
    obtain ⟨hclow, hchigh⟩ := accepts_iff.mp (htail.head c rfl)
    have hc : IsTail c := ⟨Nat.le_trans hlow hclow, Nat.le_trans hchigh hhigh⟩
    exact encodeChar_two hfirst hlast hc (by rw [← hvalue]; rfl)

/-- The lead byte of a character of three bytes; the range of the second one leaves out overlong
forms and surrogates. -/
theorem isBegun_lead_three (hfirst : 0xE0 ≤ b.toNat) (hlast : b.toNat < 0xF0)
    (hvalue : value = b.toNat - 0xE0) (hlow : 0x80 ≤ low) (hhigh : high ≤ 0xBF)
    (hoverlong : b.toNat = 0xE0 → 0xA0 ≤ low) (hsurrogate : b.toNat = 0xED → high ≤ 0x9F) :
    (Pending.mk [b] value 2 low high).IsBegun where
  owed_pos := Nat.two_pos
  encodes := by
    intro tail htail
    obtain ⟨c, d, rfl⟩ := List.length_eq_two.mp htail.length_eq
    obtain ⟨hclow, hchigh⟩ := accepts_iff.mp (htail.head c rfl)
    have hc : IsTail c := ⟨Nat.le_trans hlow hclow, Nat.le_trans hchigh hhigh⟩
    have hd : IsTail d := htail.rest d List.mem_cons_self
    exact encodeChar_three hfirst hlast hc (fun h ↦ Nat.le_trans (hoverlong h) hclow)
      (fun h ↦ Nat.le_trans hchigh (hsurrogate h)) hd (by rw [← hvalue]; rfl)

/-- The lead byte of a character of four bytes; the range of the second one leaves out overlong
forms and what lies beyond the last character. -/
theorem isBegun_lead_four (hfirst : 0xF0 ≤ b.toNat) (hlast : b.toNat < 0xF5)
    (hvalue : value = b.toNat - 0xF0) (hlow : 0x80 ≤ low) (hhigh : high ≤ 0xBF)
    (hoverlong : b.toNat = 0xF0 → 0x90 ≤ low) (hbeyond : b.toNat = 0xF4 → high ≤ 0x8F) :
    (Pending.mk [b] value 3 low high).IsBegun where
  owed_pos := Nat.succ_pos 2
  encodes := by
    intro tail htail
    obtain ⟨c, d, e, rfl⟩ := List.length_eq_three.mp htail.length_eq
    obtain ⟨hclow, hchigh⟩ := accepts_iff.mp (htail.head c rfl)
    have hc : IsTail c := ⟨Nat.le_trans hlow hclow, Nat.le_trans hchigh hhigh⟩
    have hd : IsTail d := htail.rest d List.mem_cons_self
    have he : IsTail e := htail.rest e (List.mem_cons_of_mem _ List.mem_cons_self)
    exact encodeChar_four hfirst hlast hc (fun h ↦ Nat.le_trans (hoverlong h) hclow)
      (fun h ↦ Nat.le_trans hchigh (hbeyond h)) hd he (by rw [← hvalue]; rfl)

end Leads

end Pending

/-! ### Conservation -/

/-- A byte between characters is a chunk of its own, or it begins a character, which only bytes from
0x80 on continue. -/
theorem start_cases (b : UInt8) :
    (∃ chunk, start b = ([chunk], none) ∧ chunk.bytes = [b]) ∨
      ∃ p, start b = ([], some p) ∧ p.bytes = [b] ∧ p.IsBegun ∧ 0x80 ≤ p.low := by
  unfold start
  dsimp only
  by_cases hone : b.toNat < 0x80
  · exact Or.inl ⟨_, if_pos hone, encodeChar_one hone⟩
  rw [if_neg hone]
  by_cases hlow : b.toNat < 0xC2
  · exact Or.inl ⟨_, if_pos hlow, rfl⟩
  rw [if_neg hlow]
  by_cases htwo : b.toNat < 0xE0
  · exact Or.inr ⟨_, if_pos htwo, rfl, Pending.isBegun_lead_two (by omega) htwo rfl (by omega)
      (by omega), by simp⟩
  rw [if_neg htwo]
  by_cases hoverlong : b.toNat = 0xE0
  · exact Or.inr ⟨_, if_pos hoverlong, rfl, Pending.isBegun_lead_three (by omega) (by omega)
      (by omega) (by omega) (by omega) (by omega) (by omega), by simp⟩
  rw [if_neg hoverlong]
  by_cases hsurrogate : b.toNat = 0xED
  · exact Or.inr ⟨_, if_pos hsurrogate, rfl, Pending.isBegun_lead_three (by omega) (by omega)
      (by omega) (by omega) (by omega) (by omega) (by omega), by simp⟩
  rw [if_neg hsurrogate]
  by_cases hthree : b.toNat < 0xF0
  · exact Or.inr ⟨_, if_pos hthree, rfl, Pending.isBegun_lead_three (by omega) hthree rfl (by omega)
      (by omega) (by omega) (by omega), by simp⟩
  rw [if_neg hthree]
  by_cases hlong : b.toNat = 0xF0
  · exact Or.inr ⟨_, if_pos hlong, rfl, Pending.isBegun_lead_four (by omega) (by omega) (by omega)
      (by omega) (by omega) (by omega) (by omega), by simp⟩
  rw [if_neg hlong]
  by_cases hfour : b.toNat < 0xF4
  · exact Or.inr ⟨_, if_pos hfour, rfl, Pending.isBegun_lead_four (by omega) (by omega) rfl
      (by omega) (by omega) (by omega) (by omega), by simp⟩
  rw [if_neg hfour]
  by_cases hlast : b.toNat = 0xF4
  · exact Or.inr ⟨_, if_pos hlast, rfl, Pending.isBegun_lead_four (by omega) (by omega) (by omega)
      (by omega) (by omega) (by omega) (by omega), by simp⟩
  · exact Or.inl ⟨_, if_neg hlast, rfl⟩

/-- What a byte between characters begins, it begins rightly, and no byte is lost. -/
theorem start_conserves (b : UInt8) :
    (start b).1.flatMap Chunk.bytes ++ heldBytes (start b).2 = [b] ∧
      ∀ p ∈ (start b).2, p.IsBegun := by
  rcases start_cases b with ⟨chunk, hstart, hbytes⟩ | ⟨p, hstart, hbytes, hbegun, -⟩
  · rw [hstart]
    simp [heldBytes, hbytes]
  · rw [hstart]
    refine ⟨hbytes, fun q hq ↦ ?_⟩
    rwa [← Option.some.inj hq]

theorem step_conserves {state : Option Pending} (h : ∀ p ∈ state, p.IsBegun) (b : UInt8) :
    (step state b).1.flatMap Chunk.bytes ++ heldBytes (step state b).2 = heldBytes state ++ [b] ∧
      ∀ p ∈ (step state b).2, p.IsBegun := by
  cases state with
  | none => exact start_conserves b
  | some p =>
    have hp : p.IsBegun := h p rfl
    rw [step]
    by_cases hb : p.accepts b = true
    · rw [if_pos hb]
      by_cases howed : p.owed ≤ 1
      · rw [if_pos howed]
        refine ⟨?_, by simp⟩
        simpa [heldBytes, Chunk.bytes] using hp.last hb howed
      · rw [if_neg howed]
        refine ⟨rfl, fun q hq ↦ ?_⟩
        rw [← Option.some.inj hq]
        exact hp.push hb (Nat.lt_of_not_le howed)
    · rw [if_neg hb]
      obtain ⟨hbytes, hbegun⟩ := start_conserves b
      refine ⟨?_, hbegun⟩
      rw [List.flatMap_cons, List.append_assoc, hbytes]
      rfl

theorem flatMap_bytes_chunksFrom (bytes : Bytes) :
    ∀ {state : Option Pending}, (∀ p ∈ state, p.IsBegun) →
      (chunksFrom state bytes).flatMap Chunk.bytes = heldBytes state ++ bytes := by
  induction bytes with
  | nil =>
    intro state _
    cases state with
    | none => rfl
    | some p => simp [chunksFrom, heldBytes, Chunk.bytes]
  | cons b rest ih =>
    intro state h
    obtain ⟨hbytes, hbegun⟩ := step_conserves h b
    rw [chunksFrom_cons, List.flatMap_append, ih hbegun, ← List.append_assoc, hbytes,
      ← List.append_cons]

/-- The chunks of a byte string, put together, are the byte string. -/
theorem flatMap_bytes_chunks (bytes : Bytes) : (chunks bytes).flatMap Chunk.bytes = bytes :=
  flatMap_bytes_chunksFrom bytes (by simp)

/-! ### Decoding -/

theorem eq_map_char_of_strictFrom {chunks : List Chunk} {text : List Char} :
    ∀ {position : Nat}, strictFrom position chunks = .ok text → chunks = text.map .char := by
  induction chunks generalizing text with
  | nil =>
    intro position h
    obtain rfl := Except.ok.inj h
    rfl
  | cons chunk rest ih =>
    intro position h
    cases chunk with
    | illFormed bytes fault => cases h
    | char c =>
      rw [strictFrom] at h
      cases hrest : strictFrom (position + (encodeChar c).length) rest with
      | error error => rw [hrest] at h; cases h
      | ok text =>
        rw [hrest] at h
        obtain rfl := Except.ok.inj h
        rw [ih hrest, List.map_cons]

/-- A byte string that decodes is the encoding of its text. -/
theorem encode_of_decode {bytes : Bytes} {text : List Char} (h : decode bytes = .ok text) :
    encode text = bytes := by
  have hchunks := eq_map_char_of_strictFrom h
  rw [← flatMap_bytes_chunks bytes, hchunks, List.flatMap_map]
  rfl

/-! ### Bytes below 0x80 -/

theorem le_of_mem_encodeChar {c : Char} (h : 0x80 ≤ c.toNat) {b : UInt8} (hb : b ∈ encodeChar c) :
    0x80 ≤ b.toNat := by
  have hvalid : c.toNat < 0xD800 ∨ 0xDFFF < c.toNat ∧ c.toNat < 0x110000 := c.valid
  rw [encodeChar, if_neg (Nat.not_lt.mpr h)] at hb
  split at hb
  · rcases List.mem_pair.mp hb with rfl | rfl <;> rw [toNat_ofNat_of_lt (by omega)] <;> omega
  split at hb
  · simp only [List.mem_cons, List.not_mem_nil, or_false] at hb
    rcases hb with rfl | rfl | rfl <;> rw [toNat_ofNat_of_lt (by omega)] <;> omega
  · simp only [List.mem_cons, List.not_mem_nil, or_false] at hb
    rcases hb with rfl | rfl | rfl | rfl <;> rw [toNat_ofNat_of_lt (by omega)] <;> omega

theorem mem_encodeChar_iff {c : Char} (hc : c.toNat < 0x80) {d : Char} :
    UInt8.ofNat c.toNat ∈ encodeChar d ↔ c = d := by
  constructor
  · intro h
    have hbyte : (UInt8.ofNat c.toNat).toNat = c.toNat := toNat_ofNat_of_lt (by omega)
    have hd : d.toNat < 0x80 := by
      refine Nat.lt_of_not_le fun hd ↦ ?_
      have hle := le_of_mem_encodeChar hd h
      omega
    rw [encodeChar, if_pos hd, List.mem_singleton] at h
    rw [h, toNat_ofNat_of_lt (by omega)] at hbyte
    exact Char.toNat_inj.mp hbyte.symm
  · rintro rfl
    rw [encodeChar, if_pos hc]
    exact List.mem_singleton_self _

/-- A byte below 0x80 in an encoding is the character it stands for. -/
theorem mem_encode_iff {c : Char} (hc : c.toNat < 0x80) {text : List Char} :
    UInt8.ofNat c.toNat ∈ encode text ↔ c ∈ text := by
  simp [encode, List.mem_flatMap, mem_encodeChar_iff hc]

end TagScope.Utf8
