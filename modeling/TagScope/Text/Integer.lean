import TagScope.Text.Blank

/-!
Reading a whole number from a text: white space around it, a sign, the decimal
digits of any script, and single underscores between digits. A number has to have
a sensible length.
-/

set_option autoImplicit false

namespace TagScope.Integer

/-- The zeros of the decimal digit sets; the other nine digits follow each. -/
def zeros : List Nat :=
  [0x30, 0x660, 0x6F0, 0x7C0, 0x966, 0x9E6, 0xA66, 0xAE6, 0xB66, 0xBE6, 0xC66, 0xCE6, 0xD66, 0xDE6,
    0xE50, 0xED0, 0xF20, 0x1040, 0x1090, 0x17E0, 0x1810, 0x1946, 0x19D0, 0x1A80, 0x1A90, 0x1B50,
    0x1BB0, 0x1C40, 0x1C50, 0xA620, 0xA8D0, 0xA900, 0xA9D0, 0xA9F0, 0xAA50, 0xABF0, 0xFF10, 0x104A0,
    0x10D30, 0x11066, 0x110F0, 0x11136, 0x111D0, 0x112F0, 0x11450, 0x114D0, 0x11650, 0x116C0,
    0x11730, 0x118E0, 0x11950, 0x11C50, 0x11D50, 0x11DA0, 0x16A60, 0x16AC0, 0x16B50, 0x1D7CE,
    0x1D7D8, 0x1D7E2, 0x1D7EC, 0x1D7F6, 0x1E140, 0x1E2F0, 0x1E950, 0x1FBF0]

def digit? (c : Char) : Option Nat :=
  (zeros.find? fun first ↦ decide (first ≤ c.toNat) && decide (c.toNat < first + 10)).map
    fun first ↦ c.toNat - first

/-- The value of a run of digits after `value`; an underscore needs a digit on
either side. -/
def digitsFrom (value : Nat) : List Char → Option Nat
  | [] => some value
  | '_' :: c :: rest => (digit? c).bind fun d ↦ digitsFrom (value * 10 + d) rest
  | c :: rest => (digit? c).bind fun d ↦ digitsFrom (value * 10 + d) rest

/-- How many digits a number may have, zeros in front included. -/
def longest : Nat := 4300

def unsigned? : List Char → Option Nat
  | [] => none
  | c :: rest =>
    if longest < ((c :: rest).filter fun c ↦ (digit? c).isSome).length then none
    else (digit? c).bind fun d ↦ digitsFrom d rest

/-- White space that may surround a number: any but the ASCII separators. -/
def isPadding (c : Char) : Bool :=
  Blank.isBlank c && !(decide (0x1C ≤ c.toNat) && decide (c.toNat ≤ 0x1F))

def trim (text : List Char) : List Char :=
  ((text.dropWhile isPadding).reverse.dropWhile isPadding).reverse

def ofText? (text : String) : Option Int :=
  match trim text.toList with
  | '-' :: rest => (unsigned? rest).map fun n ↦ -(n : Int)
  | '+' :: rest => (unsigned? rest).map fun n ↦ (n : Int)
  | digits => (unsigned? digits).map fun n ↦ (n : Int)

end TagScope.Integer
