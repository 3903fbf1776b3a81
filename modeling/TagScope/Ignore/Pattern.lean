import TagScope.Ignore.Range
import TagScope.Text.Blank
import TagScope.Text.Quoted

/-!
Ignore patterns. A pattern is cut at slashes into segments, and these make a list
of items. The rules of several patterns decide a path together.
-/

set_option autoImplicit false

namespace TagScope.Ignore

/-- Why a segment is no pattern: a bracket is not closed, or a backslash has nothing
to escape. -/
inductive Defect where
  | unclosed
  | dangling
deriving DecidableEq, Repr

/-- Where the reading of a segment stands: between items, after a backslash, after
an opening bracket, at the first character of a bracket expression (which is never
its end), or within one. -/
inductive Mode where
  | plain
  | escaped
  | opened
  | first (negated : Bool)
  | within (negated : Bool) (body : List Char)
deriving DecidableEq, Repr

def itemsFrom : Mode → List Char → Except Defect (List Item)
  | .plain, [] => .ok []
  | .plain, c :: rest =>
    match c with
    | '\\' => itemsFrom .escaped rest
    | '[' => itemsFrom .opened rest
    | '*' => (itemsFrom .plain rest).map (Item.run :: ·)
    | '?' => (itemsFrom .plain rest).map (Item.one :: ·)
    | _ => (itemsFrom .plain rest).map (Item.char c :: ·)
  | .escaped, [] => .error .dangling
  | .escaped, c :: rest => (itemsFrom .plain rest).map (Item.char c :: ·)
  | .opened, [] => .error .unclosed
  | .opened, c :: rest =>
    if c = '!' || c = '^' then itemsFrom (.first true) rest
    else itemsFrom (.within false [c]) rest
  | .first _, [] => .error .unclosed
  | .first negated, c :: rest => itemsFrom (.within negated [c]) rest
  | .within _ _, [] => .error .unclosed
  | .within negated body, c :: rest =>
    if c = ']' then (itemsFrom .plain rest).map (Item.oneOf negated body :: ·)
    else itemsFrom (.within negated (body ++ [c])) rest

abbrev Segment := List Char

def deep : Segment := ['*', '*']

def star : Segment := ['*']

/-- The items of a segment that is not `**`. -/
def segmentItems (segment : Segment) : Except Defect (List Item) :=
  if segment = star then .ok [.name] else itemsFrom .plain segment

/-- The items of the segments after the beginning of a pattern. A slash comes before
each segment, but not right after leading directories. -/
def itemsOf (slash : Bool) : List Segment → Except Defect (List Item)
  | [] => .ok []
  | segment :: rest =>
    if segment = deep then
      if rest.isEmpty then .ok [.char '/'] else (itemsOf true rest).map (Item.between :: ·)
    else
      match segmentItems segment with
      | .error defect => .error defect
      | .ok items =>
        (itemsOf true rest).map fun others ↦
          (if slash then [.char '/'] else []) ++ items ++
            (if rest.isEmpty then [.stop] else []) ++ others

/-- What a pattern matches: every path with a character other than a line feed, every
path with a directory in it, or the paths that its items match. -/
inductive Matcher where
  | anything
  | nested
  | sequence (items : List Item)
deriving DecidableEq, Repr

def Matcher.accepts : Matcher → List Char → Bool
  | .anything, path => path.any (· != '\n')
  | .nested, path => path.contains '/'
  | .sequence items, path => itemsMatch items path

/-- The first range of a pattern that runs backwards. -/
def Matcher.backwardRange? : Matcher → Option BackwardRange
  | .anything | .nested => none
  | .sequence items => BackwardRange.find? items

/-- A run of `**` says no more than one. -/
def collapse : List Segment → List Segment
  | [] => []
  | [segment] => [segment]
  | a :: b :: rest =>
    if a = deep && b = deep then collapse (b :: rest) else a :: collapse (b :: rest)

/-- Makes the two ends of a pattern explicit: a pattern of one segment matches at
any depth, and a final slash means whatever is below. -/
def normalize (segments : List Segment) : List Segment :=
  let placed :=
    match segments with
    | [] :: rest => rest
    | [only] => if only = deep then [only] else [deep, only]
    | [only, []] => if only = deep then [only, []] else [deep, only, []]
    | _ => segments
  collapse (placed.dropLast ++ placed.getLast?.toList.map fun last ↦
    if last = [] then deep else last)

def matcherOf (segments : List Segment) : Except Defect Matcher :=
  let isDirectory := segments.getLast? = some []
  let normal := normalize segments
  if normal = [deep] then .ok (if isDirectory then .nested else .anything)
  else if normal = [deep, star] then .ok .anything
  else if normal = [deep, star, deep] then .ok .nested
  else
    match normal with
    | segment :: rest =>
      if segment = deep then (itemsOf false rest).map fun items ↦ .sequence (.leading :: items)
      else (itemsOf false normal).map .sequence
    | [] => .ok (.sequence [])

/-- A pattern that decides the paths it matches. -/
structure Rule where
  negated : Bool
  matcher : Matcher
deriving DecidableEq, Repr

/-- Why a pattern is refused: a backslash has nothing to escape, or a bracket expression
has a range that runs backwards. -/
inductive PatternError where
  | invalid (pattern : String)
  | backwardRange (range : BackwardRange)
deriving DecidableEq, Repr

def PatternError.message : PatternError → String
  | .invalid pattern => "Invalid git pattern: " ++ Quoted.quote pattern
  | .backwardRange range => range.message

/-- Trailing white space is no part of a pattern, unless it is an escaped blank. -/
def stripped (pattern : List Char) : List Char :=
  if ['\\', ' '].isSuffixOf pattern then pattern else Blank.trimRight pattern

/-- The rule of a pattern. Comments and empty patterns have none, nor has one with
an unclosed bracket. -/
def Rule.ofPattern (pattern : List Char) : Except PatternError (Option Rule) :=
  match stripped pattern with
  | [] | ['/'] | ['!'] => .ok none
  | '#' :: _ => .ok none
  | c :: rest =>
    let body := if c = '!' then rest else c :: rest
    match matcherOf (body.splitOn '/') with
    | .ok matcher =>
      match matcher.backwardRange? with
      | some range => .error (.backwardRange range)
      | none => .ok (some ⟨decide (c = '!'), matcher⟩)
    | .error .unclosed => .ok none
    | .error .dangling => .error (.invalid (String.ofList pattern))

/-- The rules of several patterns, or the first pattern that is refused. -/
def rulesOf : List (List Char) → Except PatternError (List Rule)
  | [] => .ok []
  | pattern :: rest =>
    match Rule.ofPattern pattern with
    | .error e => .error e
    | .ok rule => (rulesOf rest).map (rule.toList ++ ·)

/-- The last rule that matches a path decides it; a path that none matches is not
ignored. -/
def ignores (rules : List Rule) (path : List Char) : Bool :=
  rules.foldl (fun ignored rule ↦
    if rule.matcher.accepts path then !rule.negated else ignored) false

end TagScope.Ignore
