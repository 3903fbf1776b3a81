import TagScope.Text.Integer
import TagScope.Value

/-!
Reading data from its JSON text. Besides JSON's own numbers there are `NaN` and the
two infinities. A number without a point and an exponent is whole, and must not be
longer than a limit; any other number is the nearest double.
-/

set_option autoImplicit false

namespace TagScope.Value

/-- Why a text gives no data: it is malformed from a position on, or a whole number in
it is too long. -/
inductive ReadFault where
  | malformed (position : Nat)
  | longInteger
deriving DecidableEq, Repr

namespace Reader

/-- A failure while reading; a malformed text is told by the number of letters left. -/
inductive Fault where
  | malformed (left : Nat)
  | longInteger
deriving DecidableEq, Repr

/-- A result with the letters after it, or a failure. -/
abbrev Reading (α : Type) := Except Fault (α × List Letter)

def fail {α : Type} (rest : List Letter) : Reading α :=
  .error (.malformed rest.length)

def isSpace (letter : Letter) : Bool :=
  [Letter.char ' ', .char '\t', .char '\n', .char '\r'].contains letter

def skipSpace (text : List Letter) : List Letter :=
  text.dropWhile isSpace

def hexValue? : Letter → Option Nat
  | .char c =>
    if decide ('0' ≤ c) && decide (c ≤ '9') then some (c.toNat - 48)
    else if decide ('a' ≤ c) && decide (c ≤ 'f') then some (c.toNat - 87)
    else if decide ('A' ≤ c) && decide (c ≤ 'F') then some (c.toNat - 55)
    else none
  | .half _ => none

def hexUnit? (a b c d : Letter) : Option Nat :=
  match hexValue? a, hexValue? b, hexValue? c, hexValue? d with
  | some w, some x, some y, some z => some (((w * 16 + x) * 16 + y) * 16 + z)
  | _, _, _, _ => none

/-- The low half that follows the high half of a pair. -/
def lowHalf? : List Letter → Option (Nat × List Letter)
  | .char '\\' :: .char 'u' :: a :: b :: c :: d :: rest =>
    match hexUnit? a b c d with
    | some low => if Letter.isLowUnit low && !rest.isEmpty then some (low, rest) else none
    | none => none
  | _ => none

def escapes : List (Char × Char) :=
  [('\x22', '\x22'), ('\\', '\\'), ('/', '/'), ('b', '\x08'), ('f', '\x0c'), ('n', '\n'),
    ('r', '\r'), ('t', '\t')]

/-- What a backslash begins, given the letters after it: a letter, and those left. -/
def escape (rest : List Letter) : Reading Letter :=
  match rest with
  | .char 'u' :: a :: b :: c :: d :: after =>
    match hexUnit? a b c d with
    | none => fail rest
    | some unit =>
      if after.isEmpty then fail rest
      else if Letter.isHighUnit unit then
        match lowHalf? after with
        | some (low, behind) => .ok (.ofPair unit low, behind)
        | none => .ok (.half unit, after)
      else .ok (.ofCode unit, after)
  | .char 'u' :: _ => fail rest
  | .char e :: after =>
    match escapes.lookup e with
    | some c => .ok (.char c, after)
    | none => .error (.malformed (rest.length + 1))
  | _ => .error (.malformed (rest.length + 1))

/-- The rest of a string. `opened` is what was left at its opening quote, and `seen` are
the letters read so far, the last one first. -/
def string (opened : Nat) : Nat → List Letter → List Letter → Reading (List Letter)
  | 0, _, _ => .error (.malformed opened)
  | _ + 1, _, [] => .error (.malformed opened)
  | fuel + 1, seen, first :: rest =>
    match first with
    | .half unit => string opened fuel (.half unit :: seen) rest
    | .char c =>
      if c = '\x22' then .ok (seen.reverse, rest)
      else if c.toNat < 0x20 then fail (first :: rest)
      else if c = '\\' then
        if rest.isEmpty then .error (.malformed opened)
        else
          match escape rest with
          | .error fault => .error fault
          | .ok (letter, after) => string opened fuel (letter :: seen) after
      else string opened fuel (.char c :: seen) rest

def text (opened : Nat) (rest : List Letter) : Reading Text :=
  (string opened (rest.length + 1) [] rest).map fun (letters, left) ↦ (.ofLetters letters, left)

def digit? : Letter → Option Nat
  | .char c => if decide ('0' ≤ c) && decide (c ≤ '9') then some (c.toNat - 48) else none
  | .half _ => none

/-- The digits at the beginning of a text, and what follows them. -/
def digits : List Letter → List Nat × List Letter
  | [] => ([], [])
  | letter :: rest =>
    match digit? letter with
    | some d =>
      let (more, left) := digits rest
      (d :: more, left)
    | none => ([], letter :: rest)

def digitsValue (digits : List Nat) : Nat :=
  digits.foldl (fun value d ↦ value * 10 + d) 0

/-- The digits before a point; a leading zero stands alone. -/
def wholePart : List Letter → List Nat × List Letter
  | .char '0' :: rest => ([0], rest)
  | text => digits text

/-- A point and the digits after it, if there are any. -/
def fraction? : List Letter → Option (List Nat × List Letter)
  | .char '.' :: rest =>
    match digits rest with
    | ([], _) => none
    | found => some found
  | _ => none

/-- A power of ten, if one is written. -/
def power? : List Letter → Option (Int × List Letter)
  | .char e :: rest =>
    if e = 'e' || e = 'E' then
      let (sign, unsigned) : Int × List Letter :=
        match rest with
        | .char '-' :: unsigned => (-1, unsigned)
        | .char '+' :: unsigned => (1, unsigned)
        | _ => (1, rest)
      match digits unsigned with
      | ([], _) => none
      | (found, left) => some (sign * digitsValue found, left)
    else none
  | _ => none

/-- A number after its sign. -/
def magnitude (negative : Bool) (text : List Letter) : Reading Value :=
  match wholePart text with
  | ([], _) => fail text
  | (whole, afterWhole) =>
    match fraction? afterWhole, power? (((fraction? afterWhole).map Prod.snd).getD afterWhole) with
    | none, none =>
      if Integer.longest < whole.length then .error .longInteger
      else
        .ok (.int (if negative then -(digitsValue whole : Int) else digitsValue whole), afterWhole)
    | some (decimals, rest), none =>
      .ok (.double (.ofDecimal negative (digitsValue (whole ++ decimals)) (-decimals.length)), rest)
    | none, some (tens, rest) =>
      .ok (.double (.ofDecimal negative (digitsValue whole) tens), rest)
    | some (decimals, _), some (tens, rest) =>
      .ok (.double (.ofDecimal negative (digitsValue (whole ++ decimals)) (tens - decimals.length)),
        rest)

def number (text : List Letter) : Reading Value :=
  match text with
  | .char '-' :: rest =>
    match magnitude true rest with
    | .error (.malformed _) => fail text
    | result => result
  | _ => magnitude false text

/-- The words that stand for values. -/
def words : List (String × Value) :=
  [("null", .null), ("true", .bool true), ("false", .bool false), ("NaN", .double .nan),
    ("Infinity", .double (.infinite false)), ("-Infinity", .double (.infinite true))]

def atom (text : List Letter) : Reading Value :=
  match words.find? fun word ↦ (Letter.ofText word.1).isPrefixOf text with
  | some (word, value) => .ok (value, text.drop word.length)
  | none => number text

/-- Gives a key its value; a key that is there already keeps its place. -/
def putMember (key : Text) (value : Value) : List (Text × Value) → List (Text × Value)
  | [] => [(key, value)]
  | member :: rest =>
    if member.1 = key then (key, value) :: rest else member :: putMember key value rest

mutual

def value : Nat → List Letter → Reading Value
  | 0, input => fail input
  | fuel + 1, input =>
    match input with
    | .char '\x22' :: rest =>
      (text input.length rest).map fun (found, left) ↦ (.text found, left)
    | .char '[' :: rest =>
      match skipSpace rest with
      | .char ']' :: left => .ok (.array [], left)
      | first => (items fuel [] first).map fun (values, left) ↦ (.array values, left)
    | .char '\x7b' :: rest =>
      match skipSpace rest with
      | .char '\x7d' :: left => .ok (.object [], left)
      | first => (members fuel [] first).map fun (all, left) ↦ (.object all, left)
    | _ => atom input

/-- The items of an array. `seen` are those read so far, the last one first. -/
def items : Nat → List Value → List Letter → Reading (List Value)
  | 0, _, input => fail input
  | fuel + 1, seen, input =>
    match value fuel input with
    | .error fault => .error fault
    | .ok (first, after) =>
      match skipSpace after with
      | .char ']' :: left => .ok ((first :: seen).reverse, left)
      | .char ',' :: rest => items fuel (first :: seen) (skipSpace rest)
      | other => fail other

def members : Nat → List (Text × Value) → List Letter → Reading (List (Text × Value))
  | 0, _, input => fail input
  | fuel + 1, known, input =>
    match input with
    | .char '\x22' :: rest =>
      match text input.length rest with
      | .error fault => .error fault
      | .ok (key, after) =>
        match skipSpace after with
        | .char ':' :: rest =>
          match value fuel (skipSpace rest) with
          | .error fault => .error fault
          | .ok (first, after) =>
            let known := putMember key first known
            match skipSpace after with
            | .char '\x7d' :: left => .ok (known, left)
            | .char ',' :: rest => members fuel known (skipSpace rest)
            | other => fail other
        | other => fail other
    | other => fail other

end

end Reader

/-- The value of a JSON text. -/
def ofLetters (letters : List Letter) : Except ReadFault Value :=
  match Reader.value (2 * letters.length + 2) (Reader.skipSpace letters) with
  | .error (.malformed left) => .error (.malformed (letters.length - left))
  | .error .longInteger => .error .longInteger
  | .ok (value, after) =>
    match Reader.skipSpace after with
    | [] => .ok value
    | rest => .error (.malformed (letters.length - rest.length))

def ofJson (text : String) : Except ReadFault Value :=
  ofLetters (Letter.ofText text)

end TagScope.Value
