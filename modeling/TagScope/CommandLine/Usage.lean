import TagScope.Text.Blank
import TagScope.Text.Integer
import TagScope.Text.Quoted

/-!
The words of a command line. Each word is first told apart by itself: it belongs to
an option, to none that is known, or it is positional. An option may be shortened
as long as no other one begins so, and may carry its value after an equals sign.
-/

set_option autoImplicit false

namespace TagScope.CommandLine

inductive OptionId where
  | help
  | fix
  | allowGlobals
  | noAutoImport
  | typescript
  | script
  | global
  | verbose
  | serve
  | host
  | portNumber
  | openBrowser
deriving DecidableEq, Repr

/-- The spellings of the options in the order of their definition. -/
def spellings : List (String × OptionId) :=
  [("-h", .help), ("--help", .help), ("--fix", .fix), ("--allow-globals", .allowGlobals),
    ("--no-auto-import", .noAutoImport), ("--typescript", .typescript), ("--script", .script),
    ("--global", .global), ("--verbose", .verbose), ("--serve", .serve), ("--host", .host),
    ("--port", .portNumber), ("--open", .openBrowser)]

namespace OptionId

def takesValue : OptionId → Bool
  | .global | .host | .portNumber => true
  | _ => false

/-- The name of an option in a message: all its spellings. -/
def display (option : OptionId) : String :=
  String.intercalate "/" ((spellings.filter fun entry ↦ entry.2 = option).map Prod.fst)

end OptionId

/-- The word after which there are no more options. -/
def separator : String := "--"

inductive UsageError where
  | ambiguous (word : String) (candidates : List String)
  | expectsValue (option : OptionId)
  | ignoredValue (option : OptionId) (value : String)
  | invalidInteger (option : OptionId) (value : String)
  | unrecognized (words : List String)
deriving DecidableEq, Repr

def programName : String := "jsxlint"

def UsageError.message : UsageError → String
  | .ambiguous word candidates =>
    "ambiguous option: " ++ word ++ " could match " ++ String.intercalate ", " candidates
  | .expectsValue option => "argument " ++ option.display ++ ": expected one argument"
  | .ignoredValue option value =>
    "argument " ++ option.display ++ ": ignored explicit argument " ++ Quoted.quote value
  | .invalidInteger option value =>
    "argument " ++ option.display ++ ": invalid int value: " ++ Quoted.quote value
  | .unrecognized words => "unrecognized arguments: " ++ String.intercalate " " words

def UsageError.report (error : UsageError) : String :=
  programName ++ ": error: " ++ error.message

/-- The last line in which a usage error is reported: what follows the last line feed, not
counting blanks at the end. The words that a message quotes may hold line feeds of their
own; other characters that end a line are kept. -/
def UsageError.lastLine (error : UsageError) : String :=
  String.ofList ((Blank.trimRight error.report.toList).reverse.takeWhile (· != '\n')).reverse

inductive Word where
  | positional
  | separator
  | option (id : OptionId) (value : Option String)
  | unknown
deriving DecidableEq, Repr

def isDigits (text : List Char) : Bool :=
  text.all fun c ↦ (Integer.digit? c).isSome

/-- A text without the line feed that may end it. -/
def withoutLineFeed (text : List Char) : List Char :=
  if text.getLast? = some '\n' then text.dropLast else text

/-- A minus sign with digits after it, or with a point among them that is followed
by digits. A line feed at the end is passed over. -/
def isNegativeNumber (word : List Char) : Bool :=
  match withoutLineFeed word with
  | '-' :: text =>
    let whole := text.takeWhile fun c ↦ (Integer.digit? c).isSome
    match text.drop whole.length with
    | [] => !whole.isEmpty
    | '.' :: fraction => !fraction.isEmpty && isDigits fraction
    | _ => false
  | _ => false

/-- A word cut at its first equals sign. -/
def cutAtEquals (word : List Char) : List Char × Option (List Char) :=
  match word.dropWhile fun c ↦ c != '=' with
  | [] => (word, none)
  | _ :: value => (word.takeWhile fun c ↦ c != '=', some value)

/-- The options that a word may be short for, with the value it carries. After a
single dash only the next character names an option, and the rest is its value. -/
def candidatesFor (word : List Char) : List (String × OptionId × Option String) :=
  match word with
  | '-' :: '-' :: _ =>
    let (start, value) := cutAtEquals word
    (spellings.filter fun entry ↦ start.isPrefixOf entry.1.toList).map fun entry ↦
      (entry.1, entry.2, value.map String.ofList)
  | '-' :: c :: rest =>
    (spellings.filter fun entry ↦ entry.1.toList = ['-', c]).map fun entry ↦
      (entry.1, entry.2, some (String.ofList rest))
  | _ => []

/-- What a word is that is no separator. -/
def classify (word : String) : Except UsageError Word :=
  let chars := word.toList
  let exact := spellings.lookup word
  let (start, value) := cutAtEquals chars
  match chars, exact, value, spellings.lookup (String.ofList start) with
  | [], _, _, _ => .ok .positional
  | '-' :: [], _, _, _ => .ok .positional
  | '-' :: _, some id, _, _ => .ok (.option id none)
  | '-' :: _, none, some value, some id => .ok (.option id (some (String.ofList value)))
  | '-' :: _, none, _, _ =>
    match candidatesFor chars with
    | [(_, id, value)] => .ok (.option id value)
    | [] =>
      .ok (if isNegativeNumber chars || chars.contains ' ' then .positional else .unknown)
    | several => .error (.ambiguous word (several.map Prod.fst))
  | _ :: _, _, _, _ => .ok .positional

/-- Tells all words apart. From the first separator on there are no options. -/
def classifyAll : List String → Except UsageError (List (String × Word))
  | [] => .ok []
  | word :: rest =>
    if word = separator then .ok ((word, .separator) :: rest.map fun w ↦ (w, .positional))
    else
      match classify word with
      | .error error => .error error
      | .ok kind => (classifyAll rest).map ((word, kind) :: ·)

end TagScope.CommandLine
