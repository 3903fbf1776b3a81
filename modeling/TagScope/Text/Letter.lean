import TagScope.Text.Quoted

/-!
Texts as other programs may write them. A letter is a character or half of a
surrogate pair that stands alone. A text with such a half is broken: it can be
named and compared, but it has no UTF-8 form.
-/

set_option autoImplicit false

namespace TagScope

inductive Letter where
  | char (c : Char)
  | half (unit : Nat)
deriving DecidableEq, Repr

namespace Letter

def isHighUnit (unit : Nat) : Bool :=
  decide (0xD800 ≤ unit) && decide (unit ≤ 0xDBFF)

def isLowUnit (unit : Nat) : Bool :=
  decide (0xDC00 ≤ unit) && decide (unit ≤ 0xDFFF)

/-- The letter of a code point. -/
def ofCode (code : Nat) : Letter :=
  if isHighUnit code || isLowUnit code then .half code else .char (Char.ofNat code)

/-- The letter of a surrogate pair. -/
def ofPair (high low : Nat) : Letter :=
  .char (Char.ofNat (0x10000 + (high - 0xD800) * 0x400 + (low - 0xDC00)))

def char? : Letter → Option Char
  | .char c => some c
  | .half _ => none

/-- The letters of a text that has none but characters. -/
def ofText (text : String) : List Letter :=
  text.toList.map .char

end Letter

/-- The first run of halves in a text that should have been encoded. -/
structure EncodeError where
  position : Nat
  units : List Nat
deriving DecidableEq, Repr

namespace EncodeError

def message (e : EncodeError) : String :=
  let place :=
    match e.units with
    | [unit] =>
      "character '\\u" ++ String.ofList (Quoted.hexDigits 4 unit) ++ "' in position " ++
        toString e.position
    | _ => "characters in position " ++ toString e.position ++ "-" ++
        toString (e.position + e.units.length - 1)
  "'utf-8' codec can't encode " ++ place ++ ": surrogates not allowed"

/-- The halves at the beginning of some letters. -/
def leadingUnits : List Letter → List Nat
  | .half unit :: rest => unit :: leadingUnits rest
  | _ => []

/-- Looks for a half from a position on. -/
def findFrom (position : Nat) : List Letter → Option EncodeError
  | [] => none
  | .char _ :: rest => findFrom (position + 1) rest
  | .half unit :: rest => some ⟨position, unit :: leadingUnits rest⟩

end EncodeError

inductive Text where
  | proper (text : String)
  | broken (letters : List Letter)
deriving DecidableEq, Repr

namespace Text

instance : Coe String Text := ⟨proper⟩

def letters : Text → List Letter
  | .proper text => Letter.ofText text
  | .broken letters => letters

def ofLetters (letters : List Letter) : Text :=
  if letters.all fun letter ↦ letter.char?.isSome then
    .proper (String.ofList (letters.filterMap Letter.char?))
  else .broken letters

def proper? : Text → Option String
  | .proper text => some text
  | .broken _ => none

/-- The text with a replacement for every half. -/
def shown : Text → String
  | .proper text => text
  | .broken letters =>
    String.ofList (letters.map fun letter ↦ letter.char?.getD Utf8.replacement)

/-- Why a text has no UTF-8 form, if it has none. -/
def encodeError? (text : Text) : Option EncodeError :=
  EncodeError.findFrom 0 text.letters

end Text

end TagScope
