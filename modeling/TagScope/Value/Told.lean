import TagScope.Value

/-!
Data as it is told back to whoever sent it. Members whose names carry the mark of
bookkeeping are left out, at every depth; everything else stays as it is.
-/

set_option autoImplicit false

namespace TagScope.Value

/-- The beginning of the names of bookkeeping members. -/
def bookkeepingMark : String := "_sa"

def isBookkeeping (key : Text) : Bool :=
  (Letter.ofText bookkeepingMark).isPrefixOf key.letters

mutual

/-- A value without the bookkeeping in it. -/
def told : Value → Value
  | .array items => .array (toldItems items)
  | .object members => .object (toldMembers members)
  | value => value

def toldItems : List Value → List Value
  | [] => []
  | item :: rest => told item :: toldItems rest

def toldMembers : List (Text × Value) → List (Text × Value)
  | [] => []
  | (key, value) :: rest =>
    if isBookkeeping key then toldMembers rest else (key, told value) :: toldMembers rest

end

end TagScope.Value
