/-!
The items of an ignore pattern. Each of them may consume some of a path, and is
given by the rests that it can leave. Items match a path when they can be consumed
in turn, whatever is left then.
-/

set_option autoImplicit false

namespace TagScope.Ignore

/-- A part of a pattern.
`run` and `name` are any characters but slashes, for `name` at least one; `one` is
a single such character. `oneOf` is a character that a bracket expression lists, or
one that it does not list.
`leading` stands for any directories before what follows, `between` for any
directories between two parts, and `stop` for a slash or the end of the path, where a
line feed at the very end is passed over. -/
inductive Item where
  | char (c : Char)
  | run
  | name
  | one
  | oneOf (negated : Bool) (body : List Char)
  | leading
  | between
  | stop
deriving DecidableEq, Repr

/-- What is left of a path after some characters, or none, that are no slashes. -/
def runRests : List Char → List (List Char)
  | [] => [[]]
  | c :: rest => (c :: rest) :: if c = '/' then [] else runRests rest

/-- What is left after some directories: the rests behind a slash that has at least
one character before it, and no line feed on the way. -/
def directoryRests (begun : Bool) : List Char → List (List Char)
  | [] => []
  | c :: rest =>
    (if begun && c = '/' then [rest] else []) ++
      if c = '\n' then [] else directoryRests true rest

/-- What is left after at least one character, without a line feed. -/
def properRests : List Char → List (List Char)
  | [] => []
  | c :: rest => if c = '\n' then [] else rest :: properRests rest

/-- The ranges of a bracket expression: a character, a hyphen and a character are a
range, all else stands for itself. -/
def rangesOf : List Char → List (Char × Char)
  | [] => []
  | a :: '-' :: b :: rest => (a, b) :: rangesOf rest
  | a :: rest => (a, a) :: rangesOf rest

def inRanges (ranges : List (Char × Char)) (c : Char) : Bool :=
  ranges.any fun range ↦ decide (range.1 ≤ c) && decide (c ≤ range.2)

/-- The rests that an item can leave of a path. -/
def Item.rests : Item → List Char → List (List Char)
  | .char c, d :: rest => if c = d then [rest] else []
  | .char _, [] => []
  | .run, path => runRests path
  | .name, c :: rest => if c = '/' then [] else runRests rest
  | .name, [] => []
  | .one, c :: rest => if c = '/' then [] else [rest]
  | .one, [] => []
  | .oneOf negated body, c :: rest => if inRanges (rangesOf body) c != negated then [rest] else []
  | .oneOf _ _, [] => []
  | .leading, path => path :: directoryRests false path
  | .between, '/' :: rest => ('/' :: rest) :: properRests rest
  | .between, path => [path]
  | .stop, '/' :: rest => [rest]
  | .stop, [] => [[]]
  | .stop, ['\n'] => [['\n']]
  | .stop, _ :: _ => []

def itemsMatch : List Item → List Char → Bool
  | [], _ => true
  | item :: items, path => (item.rests path).any (itemsMatch items)

end TagScope.Ignore
