import TagScope.CommandLine.Usage
import TagScope.Settings.Basic
import TagScope.Stable

/-!
The arguments of a command line, read from its words. Options act in the order in
which they stand. The first run of positional words is the list of paths; a later
run is not recognized. A value that is written as the separator `--` is given and
yet empty.
-/

set_option autoImplicit false

namespace TagScope.CommandLine

structure Arguments where
  paths : List String := ["."]
  fix : Bool := false
  allowGlobals : Bool := false
  noAutoImport : Bool := false
  typescript : Bool := false
  script : Bool := false
  globals : List (Option String) := []
  verbose : Bool := false
  serve : Bool := false
  host : Option String := some "127.0.0.1"
  portNumber : Option Int := some 8000
  openBrowser : Bool := false
deriving DecidableEq, Repr

/-- Why a command line gives no arguments: it asks for help, or is wrong. -/
inductive Refusal where
  | help
  | usage (error : UsageError)
deriving DecidableEq, Repr

/-- The effect of an option without a value. -/
def Arguments.set (arguments : Arguments) : OptionId → Except Refusal Arguments
  | .help => .error .help
  | .fix => .ok { arguments with fix := true }
  | .allowGlobals => .ok { arguments with allowGlobals := true }
  | .noAutoImport => .ok { arguments with noAutoImport := true }
  | .typescript => .ok { arguments with typescript := true }
  | .script => .ok { arguments with script := true }
  | .verbose => .ok { arguments with verbose := true }
  | .serve => .ok { arguments with serve := true }
  | .openBrowser => .ok { arguments with openBrowser := true }
  | option => .error (.usage (.expectsValue option))

/-- What a written value gives. -/
def given? (value : String) : Option String :=
  if value = separator then none else some value

/-- The effect of an option with its value. -/
def Arguments.give (arguments : Arguments) (option : OptionId) (value : String) :
    Except Refusal Arguments :=
  match option with
  | .global => .ok { arguments with globals := arguments.globals ++ [given? value] }
  | .host => .ok { arguments with host := given? value }
  | .portNumber =>
    match (given? value).map Integer.ofText? with
    | none => .ok { arguments with portNumber := none }
    | some (some number) => .ok { arguments with portNumber := some number }
    | some none => .error (.usage (.invalidInteger option value))
  | option => .error (.usage (.ignoredValue option value))

/-- The words read so far: the arguments, whether the paths have been taken, the run
of positional words that is being read, and the words that nothing takes. -/
structure Reading where
  arguments : Arguments
  taken : Bool
  run : List String
  extras : List String
deriving DecidableEq, Repr

namespace Reading

def start : Reading := ⟨{}, false, [], []⟩

/-- Ends a run of positional words. The separator is none of the paths. -/
def endRun (reading : Reading) : Reading :=
  if reading.run.isEmpty then reading
  else if reading.taken then
    { reading with run := [], extras := reading.extras ++ reading.run }
  else
    { reading with
      arguments := { reading.arguments with
        paths := let words := reading.run.erase separator
                 if words.isEmpty then ["."] else words }
      taken := true
      run := [] }

end Reading

/-- Reads classified words. An option that needs a value takes the next word, which
has to be positional. -/
def readWords (reading : Reading) : List (String × Word) → Except Refusal Reading
  | [] => .ok reading.endRun
  | (word, .positional) :: rest => readWords { reading with run := reading.run ++ [word] } rest
  | (word, .separator) :: rest => readWords { reading with run := reading.run ++ [word] } rest
  | (word, .unknown) :: rest =>
    readWords { reading.endRun with extras := reading.endRun.extras ++ [word] } rest
  | (_, .option id (some value)) :: rest =>
    match reading.endRun.arguments.give id value with
    | .error refusal => .error refusal
    | .ok arguments => readWords { reading.endRun with arguments := arguments } rest
  | (_, .option id none) :: rest =>
    if id.takesValue then
      match rest with
      | (value, .positional) :: rest =>
        match reading.endRun.arguments.give id value with
        | .error refusal => .error refusal
        | .ok arguments => readWords { reading.endRun with arguments := arguments } rest
      | _ => .error (.usage (.expectsValue id))
    else
      match reading.endRun.arguments.set id with
      | .error refusal => .error refusal
      | .ok arguments => readWords { reading.endRun with arguments := arguments } rest

def Arguments.ofWords (words : List String) : Except Refusal Arguments :=
  match classifyAll words with
  | .error error => .error (.usage error)
  | .ok classified =>
    match readWords .start classified with
    | .error refusal => .error refusal
    | .ok reading =>
      if reading.extras.isEmpty then .ok reading.arguments
      else .error (.usage (.unrecognized reading.extras))

/-- A list without repetitions, the last of equal elements kept. -/
def distinct : List String → List String
  | [] => []
  | name :: rest => if rest.contains name then distinct rest else name :: distinct rest

/-- The global names of a run. Given names join the default ones, in code point order. -/
def globalNames (given : List String) : List String :=
  if given.isEmpty then browserGlobals
  else Stable.sort Stable.textLe (distinct (browserGlobals ++ given))

/-- The settings that the arguments ask for; there are none if a global was given
without a name. -/
def Arguments.settings? (arguments : Arguments) : Option Settings :=
  (arguments.globals.mapM id).map fun given ↦ {
    sourceType := if arguments.script then .script else .module
    globals := globalNames given
    options := ⟨arguments.allowGlobals, !arguments.noAutoImport, arguments.typescript⟩ }

end TagScope.CommandLine
