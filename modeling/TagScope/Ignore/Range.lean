import TagScope.Ignore.Item

/-!
Ranges that run backwards. The items of a pattern have a written form, a regular
expression; a range of a bracket expression in it has to run forwards, and one that
does not is reported with its position in that form.
-/

set_option autoImplicit false

namespace TagScope.Ignore

/-- The characters that are written with a backslash. -/
def specialCharacters : List Char :=
  "()[]\x7b\x7d?*+-|^$\\.&~# \t\n\r\x0b\x0c".toList

/-- A character of a bracket expression as it is written. -/
def bracketToken (c : Char) : List Char :=
  if c = '\\' then ['\\', '\\'] else [c]

/-- The written form of an item. -/
def Item.written : Item → List Char
  | .char c => if specialCharacters.contains c then ['\\', c] else [c]
  | .run => "[^/]*".toList
  | .name => "[^/]+".toList
  | .one => "[^/]".toList
  | .oneOf negated body =>
    '[' :: (if negated then ['^'] else []) ++ body.flatMap bracketToken ++ [']']
  | .leading => "(?:.+/)?".toList
  | .between => "(?:/.+)?".toList
  | .stop => "(?:/|$)".toList

/-- The written form of the items of a pattern. -/
def written (items : List Item) : List Char :=
  '^' :: items.flatMap Item.written

/-- A range that runs backwards, and where it stands in which written form. -/
structure BackwardRange where
  first : Char
  last : Char
  position : Nat
  form : List Char
deriving DecidableEq, Repr

namespace BackwardRange

/-- The first backward range of a bracket expression that starts at a position. -/
def inBody? (form : List Char) (position : Nat) : List Char → Option BackwardRange
  | [] => none
  | a :: '-' :: b :: rest =>
    if b < a then some ⟨a, b, position, form⟩
    else
      inBody? form (position + (bracketToken a).length + 1 + (bracketToken b).length) rest
  | a :: rest => inBody? form (position + (bracketToken a).length) rest

def inItem? (form : List Char) (position : Nat) : Item → Option BackwardRange
  | .oneOf negated body => inBody? form (position + if negated then 2 else 1) body
  | _ => none

def inItems? (form : List Char) (position : Nat) : List Item → Option BackwardRange
  | [] => none
  | item :: rest =>
    (inItem? form position item).or (inItems? form (position + item.written.length) rest)

def find? (items : List Item) : Option BackwardRange :=
  inItems? (written items) 1 items

/-- The line and the column of the range, in a form of several lines. -/
def place (range : BackwardRange) : String :=
  let before := range.form.take range.position
  let column := (before.reverse.takeWhile fun c ↦ c != '\n').length + 1
  if range.form.contains '\n' then
    " (line " ++ toString (before.count '\n' + 1) ++ ", column " ++ toString column ++ ")"
  else ""

def message (range : BackwardRange) : String :=
  "bad character range " ++ String.ofList (bracketToken range.first) ++ "-" ++
    String.ofList (bracketToken range.last) ++ " at position " ++ toString range.position ++
    range.place

end BackwardRange

end TagScope.Ignore
