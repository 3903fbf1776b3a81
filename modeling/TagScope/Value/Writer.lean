import TagScope.Value
import TagScope.Value.Shortest

/-!
The JSON text of data, without blanks. Only quotes, backslashes and control
characters are escaped in it; a number that is not finite has no JSON text.
-/

set_option autoImplicit false

namespace TagScope.Value

namespace Writer

def shortEscapes : List (Char × Char) :=
  [('\x22', '\x22'), ('\\', '\\'), ('\n', 'n'), ('\r', 'r'), ('\t', 't'), ('\x0c', 'f'),
    ('\x08', 'b')]

def escaped (c : Char) : List Char :=
  match shortEscapes.lookup c with
  | some e => ['\\', e]
  | none => if c.toNat < 0x20 then '\\' :: 'u' :: Quoted.hexDigits 4 c.toNat else [c]

def letter : Letter → List Letter
  | .char c => (escaped c).map .char
  | .half unit => [.half unit]

def quoted (text : Text) : List Letter :=
  .char '\x22' :: text.letters.flatMap letter ++ [.char '\x22']

end Writer

mutual

/-- The JSON text of a value. -/
def written? : Value → Option (List Letter)
  | .null => some (Letter.ofText "null")
  | .bool b => some (Letter.ofText (if b then "true" else "false"))
  | .int n => some (Letter.ofText (toString n))
  | .double d => d.text?.map fun chars ↦ chars.map .char
  | .text content => some (Writer.quoted content)
  | .array items => (writtenItems? items).map fun inner ↦ .char '[' :: inner ++ [.char ']']
  | .object members =>
    (writtenMembers? members).map fun inner ↦ .char '\x7b' :: inner ++ [.char '\x7d']

def writtenItems? : List Value → Option (List Letter)
  | [] => some []
  | [item] => written? item
  | item :: rest =>
    match written? item, writtenItems? rest with
    | some first, some others => some (first ++ .char ',' :: others)
    | _, _ => none

def writtenMembers? : List (Text × Value) → Option (List Letter)
  | [] => some []
  | [member] => writtenMember? member
  | member :: rest =>
    match writtenMember? member, writtenMembers? rest with
    | some first, some others => some (first ++ .char ',' :: others)
    | _, _ => none

def writtenMember? : Text × Value → Option (List Letter)
  | (key, value) => (written? value).map fun inner ↦ Writer.quoted key ++ .char ':' :: inner

end

end TagScope.Value
