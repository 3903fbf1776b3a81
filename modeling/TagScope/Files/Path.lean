/-!
Paths. A path is read from a text by cutting it at slashes; empty parts and parts
that are a single dot say nothing and are dropped, while two dots are kept. Two
leading slashes are not the same as one.
-/

set_option autoImplicit false

namespace TagScope

inductive Anchor where
  | relative
  | root
  | doubleRoot
deriving DecidableEq, Repr

def Anchor.text : Anchor → String
  | .relative => ""
  | .root => "/"
  | .doubleRoot => "//"

structure Path where
  anchor : Anchor
  parts : List String
deriving DecidableEq, Repr

namespace Path

def ofText (text : String) : Path where
  anchor :=
    match text.toList.takeWhile fun c ↦ c = '/' with
    | [] => .relative
    | [_, _] => .doubleRoot
    | _ => .root
  parts := ((text.toList.splitOn '/').map String.ofList).filter fun part ↦
    part != "" && part != "."

def toText (path : Path) : String :=
  if path.anchor = .relative && path.parts.isEmpty then "."
  else path.anchor.text ++ String.intercalate "/" path.parts

def join (path : Path) (name : String) : Path :=
  { path with parts := path.parts ++ [name] }

def name (path : Path) : String :=
  path.parts.getLastD ""

/-- The path as seen from a directory above it. -/
def relativeTo? (path base : Path) : Option Path :=
  if path.anchor = base.anchor && base.parts.isPrefixOf path.parts then
    some ⟨.relative, path.parts.drop base.parts.length⟩
  else none

/-- The end of a name from its last dot on; a dot that is the first or the last
character makes no suffix. -/
def suffixOf (name : String) : String :=
  let chars := name.toList
  let after := (chars.reverse.takeWhile fun c ↦ c != '.').reverse
  let before := chars.length - after.length - 1
  if before = 0 || after.isEmpty then "" else String.ofList ('.' :: after)

def suffix (path : Path) : String :=
  suffixOf path.name

/-- Parts in which every `..` has taken away the part before it; at the top there
is nothing to take. -/
def resolveParts (parts : List String) : List String :=
  (parts.foldl (fun (up : List String) part ↦ if part = ".." then up.tail else part :: up)
    []).reverse

/-- The absolute path meant by a path in a working directory. Two leading slashes
stay. -/
def absolute (cwd : List String) (path : Path) : Path :=
  match path.anchor with
  | .relative => ⟨.root, resolveParts (cwd ++ path.parts)⟩
  | anchor => ⟨anchor, resolveParts path.parts⟩

/-- The place that a path means in a working directory. All places have one leading
slash. -/
def place (cwd : List String) (path : Path) : Path :=
  { path.absolute cwd with anchor := .root }

/-- The directory that a path lies in. -/
def parent (path : Path) : Path :=
  { path with parts := path.parts.dropLast }

end Path

end TagScope
