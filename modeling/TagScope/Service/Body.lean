import TagScope.Value.Reader

/-!
The data of a request's body. A body is the UTF-8 form of a text, but it may be
meant in another encoding: JSON begins with ASCII characters, so the zero bytes at
the beginning show the size and the order of the units.
-/

set_option autoImplicit false

namespace TagScope.Service

inductive Body where
  | empty
  | value (data : Value)
  | raw (text : String)
deriving Repr

inductive Encoding where
  | utf8
  | utf16 (bigEndian : Bool)
  | utf32 (bigEndian : Bool)
deriving DecidableEq, Repr

namespace Encoding

/-- The encoding that the first bytes show. -/
def detect : Bytes → Encoding
  | a :: b :: c :: d :: _ =>
    if a = 0 then (if b = 0 then .utf32 true else .utf16 true)
    else if b = 0 then (if c = 0 && d = 0 then .utf32 false else .utf16 false)
    else .utf8
  | [a, b] => if a = 0 then .utf16 true else if b = 0 then .utf16 false else .utf8
  | _ => .utf8

/-- The number that some bytes write. -/
def number (bigEndian : Bool) (bytes : Bytes) : Nat :=
  (if bigEndian then bytes else bytes.reverse).foldl (fun n b ↦ n * 256 + b.toNat) 0

/-- The units of two bytes; a byte that is left over belongs to none. -/
def units16? (bigEndian : Bool) : Bytes → Option (List Nat)
  | [] => some []
  | [_] => none
  | a :: b :: rest => (units16? bigEndian rest).map (number bigEndian [a, b] :: ·)

def units32? (bigEndian : Bool) : Bytes → Option (List Nat)
  | [] => some []
  | a :: b :: c :: d :: rest =>
    (units32? bigEndian rest).map (number bigEndian [a, b, c, d] :: ·)
  | _ => none

/-- The letters of units of two bytes: a high half and a low half after it are one
character, and any other half stands alone. -/
def letters16 : List Nat → List Letter
  | [] => []
  | [unit] => [.ofCode unit]
  | high :: low :: rest =>
    if Letter.isHighUnit high && Letter.isLowUnit low then .ofPair high low :: letters16 rest
    else .ofCode high :: letters16 (low :: rest)

/-- The letters of units of four bytes; all of them have to be code points. -/
def letters32? (units : List Nat) : Option (List Letter) :=
  if units.all fun unit ↦ decide (unit < 0x110000) then some (units.map .ofCode) else none

/-- A mark of byte order before a text is no part of it. -/
def unmarked : List Letter → List Letter
  | .char c :: rest => if c.toNat = 0xFEFF then rest else .char c :: rest
  | letters => letters

end Encoding

/-- The letters of a body, if it is sound in the encoding that it shows. -/
def lettersOf? (text : String) : Option (List Letter) :=
  let bytes := Utf8.encode text.toList
  match Encoding.detect bytes with
  | .utf8 => some (Encoding.unmarked (Letter.ofText text))
  | .utf16 bigEndian => (Encoding.units16? bigEndian bytes).map Encoding.letters16
  | .utf32 bigEndian => (Encoding.units32? bigEndian bytes).bind Encoding.letters32?

/-- What a body comes to. -/
inductive Content where
  | absent
  | data (value : Value)
  | malformed (position : Nat)
  | unreadable
deriving Repr

def Body.content : Body → Content
  | .empty | .raw "" => .absent
  | .value data => .data data
  | .raw text =>
    match (lettersOf? text).map Value.ofLetters with
    | none => .unreadable
    | some (.ok data) => .data data
    | some (.error (.malformed position)) => .malformed position
    | some (.error .longInteger) => .unreadable

end TagScope.Service
