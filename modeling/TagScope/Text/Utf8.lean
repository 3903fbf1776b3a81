/-!
UTF-8 as a machine that reads one byte at a time. Its output is a list of
chunks: each chunk is either a character or a maximal ill-formed sequence, so
the three readings of a byte string (replacing, dropping and refusing what is
ill-formed) are views of one list. Reading byte by byte, rather than character
by character, makes the number of chunks of a prefix grow by at most one per
byte.
-/

set_option autoImplicit false

namespace TagScope

abbrev Bytes := List UInt8

namespace Utf8

inductive Fault where
  | invalidStart
  | invalidContinuation
  | unexpectedEnd
deriving DecidableEq, Repr

def Fault.reason : Fault → String
  | .invalidStart => "invalid start byte"
  | .invalidContinuation => "invalid continuation byte"
  | .unexpectedEnd => "unexpected end of data"

inductive Chunk where
  | char (c : Char)
  | illFormed (bytes : Bytes) (fault : Fault)
deriving DecidableEq, Repr

/-- A character whose first bytes have been read: `value` holds their payload,
`owed` continuation bytes are still to come, and the next one lies between
`low` and `high`. -/
structure Pending where
  bytes : Bytes
  value : Nat
  owed : Nat
  low : Nat
  high : Nat
deriving DecidableEq, Repr

def Pending.accepts (p : Pending) (b : UInt8) : Bool :=
  decide (p.low ≤ b.toNat) && decide (b.toNat ≤ p.high)

/-- Only the second byte of a character has a range of its own. -/
def Pending.push (p : Pending) (b : UInt8) : Pending where
  bytes := p.bytes ++ [b]
  value := p.value * 64 + (b.toNat - 0x80)
  owed := p.owed - 1
  low := 0x80
  high := 0xBF

/-- What a byte between characters does: it is a character, it opens one, or it
can be neither. The ranges leave out overlong forms, surrogates and everything
above U+10FFFF. -/
def start (b : UInt8) : List Chunk × Option Pending :=
  let n := b.toNat
  if n < 0x80 then ([.char (Char.ofNat n)], none)
  else if n < 0xC2 then ([.illFormed [b] .invalidStart], none)
  else if n < 0xE0 then ([], some ⟨[b], n - 0xC0, 1, 0x80, 0xBF⟩)
  else if n = 0xE0 then ([], some ⟨[b], 0, 2, 0xA0, 0xBF⟩)
  else if n = 0xED then ([], some ⟨[b], 0xD, 2, 0x80, 0x9F⟩)
  else if n < 0xF0 then ([], some ⟨[b], n - 0xE0, 2, 0x80, 0xBF⟩)
  else if n = 0xF0 then ([], some ⟨[b], 0, 3, 0x90, 0xBF⟩)
  else if n < 0xF4 then ([], some ⟨[b], n - 0xF0, 3, 0x80, 0xBF⟩)
  else if n = 0xF4 then ([], some ⟨[b], 4, 3, 0x80, 0x8F⟩)
  else ([.illFormed [b] .invalidStart], none)

/-- One byte: the chunks it completes, and what is pending after it. A byte that
cannot continue the pending character ends it as ill-formed and is then read
afresh. -/
def step : Option Pending → UInt8 → List Chunk × Option Pending
  | none, b => start b
  | some p, b =>
    if p.accepts b then
      if p.owed ≤ 1 then ([.char (Char.ofNat (p.push b).value)], none) else ([], some (p.push b))
    else
      (.illFormed p.bytes .invalidContinuation :: (start b).1, (start b).2)

def chunksFrom : Option Pending → Bytes → List Chunk
  | none, [] => []
  | some p, [] => [.illFormed p.bytes .unexpectedEnd]
  | state, b :: rest => (step state b).1 ++ chunksFrom (step state b).2 rest

def chunks (bytes : Bytes) : List Chunk :=
  chunksFrom none bytes

/-- The number of characters shown when every ill-formed sequence is replaced by
one character. -/
def charCount (bytes : Bytes) : Nat :=
  (chunks bytes).length

def replacement : Char := Char.ofNat 0xFFFD

def Chunk.replaced : Chunk → Char
  | .char c => c
  | .illFormed _ _ => replacement

def Chunk.char? : Chunk → Option Char
  | .char c => some c
  | .illFormed _ _ => none

/-- Every ill-formed sequence becomes one U+FFFD. -/
def decodeReplacing (bytes : Bytes) : List Char :=
  (chunks bytes).map Chunk.replaced

/-- Ill-formed sequences are dropped. -/
def decodeDropping (bytes : Bytes) : List Char :=
  (chunks bytes).filterMap Chunk.char?

def encodeChar (c : Char) : Bytes :=
  let n := c.toNat
  if n < 0x80 then [UInt8.ofNat n]
  else if n < 0x800 then [UInt8.ofNat (0xC0 + n / 64), UInt8.ofNat (0x80 + n % 64)]
  else if n < 0x10000 then
    [UInt8.ofNat (0xE0 + n / 4096), UInt8.ofNat (0x80 + n / 64 % 64), UInt8.ofNat (0x80 + n % 64)]
  else
    [UInt8.ofNat (0xF0 + n / 262144), UInt8.ofNat (0x80 + n / 4096 % 64),
      UInt8.ofNat (0x80 + n / 64 % 64), UInt8.ofNat (0x80 + n % 64)]

def encode (text : List Char) : Bytes :=
  text.flatMap encodeChar

/-- The first ill-formed sequence of a byte string that should have been text. -/
structure DecodeError where
  position : Nat
  bytes : Bytes
  fault : Fault
deriving DecidableEq, Repr

def hexDigit (n : Nat) : Char :=
  if n < 10 then Char.ofNat (48 + n) else Char.ofNat (87 + n)

def hexByte (b : UInt8) : String :=
  String.ofList [hexDigit (b.toNat / 16), hexDigit (b.toNat % 16)]

def DecodeError.message (e : DecodeError) : String :=
  let place :=
    match e.bytes with
    | [b] => "byte 0x" ++ hexByte b ++ " in position " ++ toString e.position
    | _ => "bytes in position " ++ toString e.position ++ "-" ++
        toString (e.position + e.bytes.length - 1)
  "'utf-8' codec can't decode " ++ place ++ ": " ++ e.fault.reason

def strictFrom (position : Nat) : List Chunk → Except DecodeError (List Char)
  | [] => .ok []
  | .char c :: rest => (strictFrom (position + (encodeChar c).length) rest).map (c :: ·)
  | .illFormed bytes fault :: _ => .error ⟨position, bytes, fault⟩

/-- The text of a byte string, or its first ill-formed sequence. -/
def decode (bytes : Bytes) : Except DecodeError (List Char) :=
  strictFrom 0 (chunks bytes)

end Utf8

end TagScope
