import TagScope.Ignore.Pattern
import TagScope.Text.LineBreak
import TagScope.Text.Utf8

/-!
Ignore files. A line of an ignore file speaks of the directory that holds the
file; it is turned into a pattern that says the same of paths from the root of
the repository. A line with a slash before its last character is tied to that
directory, any other one holds at every depth beneath it.
-/

set_option autoImplicit false

namespace TagScope.Ignore

def fileName : String := ".gitignore"

def isSlash (c : Char) : Bool := c = '/'

/-- Whether a slash stands before the last character that is none. -/
def isAnchored (body : List Char) : Bool :=
  (body.reverse.dropWhile isSlash).contains '/'

/-- A line of the directory `base` as a pattern from the root; at the root itself
`base` is empty. -/
def rebaseBody (base body : List Char) : List Char :=
  let bare := body.dropWhile isSlash
  let place := if base.isEmpty then [] else '/' :: base
  if isAnchored body then place ++ '/' :: bare
  else if base.isEmpty then ['*', '*', '/'] ++ bare
  else place ++ ['/', '*', '*', '/'] ++ bare

/-- The pattern of a line; empty lines and comments have none. -/
def rebase (base line : List Char) : Option (List Char) :=
  match Blank.trimRight line with
  | [] => none
  | '#' :: _ => none
  | '!' :: body => some ('!' :: rebaseBody base body)
  | body => some (rebaseBody base body)

/-- The patterns of an ignore file. -/
def patterns (content : Bytes) (base : String) : List (List Char) :=
  (LineBreak.lines (LineBreak.normalize (Utf8.decodeReplacing content))).filterMap
    (rebase base.toList)

end TagScope.Ignore
