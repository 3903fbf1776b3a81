/-!
Line ends. Text read from a file has its carriage returns turned into line
feeds, and a text is cut into lines at every character that ends one.
-/

set_option autoImplicit false

namespace TagScope.LineBreak

/-- A carriage return becomes a line feed, and so does one followed by a line
feed. -/
def normalize : List Char → List Char
  | [] => []
  | '\r' :: '\n' :: rest => '\n' :: normalize rest
  | c :: rest => (if c = '\r' then '\n' else c) :: normalize rest

def ends : List Nat :=
  [0x0A, 0x0B, 0x0C, 0x1C, 0x1D, 0x1E, 0x85, 0x2028, 0x2029]

def isEnd (c : Char) : Bool :=
  ends.contains c.toNat

/-- The lines of a normalized text without their ends; a text that ends in a line
end has no empty line after it. -/
def lines : List Char → List (List Char)
  | [] => []
  | c :: rest =>
    if isEnd c then [] :: lines rest
    else
      match lines rest with
      | [] => [[c]]
      | first :: others => (c :: first) :: others

end TagScope.LineBreak
