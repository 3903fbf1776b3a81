import TagScope.CommandLine.Arguments
import TagScope.Lint.Files

/-!
A run of the command line. All paths are linted before anything is written or
printed, so a path that cannot be linted leaves the disk as it was. A file that
was fixed is reported as its new text stands.
-/

set_option autoImplicit false

namespace TagScope.CommandLine

/-- How a run ends. -/
inductive Ending where
  | finished (problems : Nat)
  | served (host : Option String) (portNumber : Option Int)
  | refused (refusal : Refusal)
  | namelessGlobal
  | noSuchPath (path : String)
  | uncollected (error : CollectError)
  | badImport (fault : ImportFault)
deriving DecidableEq, Repr

/-- What is said of a global that was given without a name. -/
def namelessGlobalMessage : String := "unhashable type: 'list'"

structure Outcome where
  disk : Disk
  printed : List String
  ending : Ending
deriving Repr

/-- The results for one path. -/
def lintPath (parser : Parser) (disk : Disk) (settings : Settings) (fix : Bool) (path : String) :
    Except Ending (List FileReport) :=
  let target := disk.absolute (Path.ofText path)
  match disk.found? target with
  | .error error => .error (.uncollected (.path error))
  | .ok none => .error (.noSuchPath target.toText)
  | .ok (some (.file _)) => .ok [Lint.attempt parser disk settings fix target.toText]
  | .ok (some (.directory _)) =>
    match Lint.directory parser disk settings fix target with
    | .ok results => .ok results
    | .error error => .error (.uncollected error)

def lintPaths (parser : Parser) (disk : Disk) (settings : Settings) (fix : Bool) :
    List String → Except Ending (List FileReport)
  | [] => .ok []
  | path :: rest =>
    match lintPath parser disk settings fix path with
    | .error ending => .error ending
    | .ok results => (lintPaths parser disk settings fix rest).map (results ++ ·)

/-- The text to write for a result, when its fixes are wanted. -/
def fixedText? (fix : Bool) (result : FileReport) : Option String :=
  if fix && result.hasFixes then result.output else none

/-- Writes the fixes of the results and prints what is left of their problems. -/
def settle (parser : Parser) (settings : Settings) (fix : Bool) (disk : Disk)
    (printed : List String) (problems : Nat) : List FileReport → Outcome
  | [] =>
    let verdict :=
      if problems = 0 then "✅ No problems found"
      else "❌ " ++ toString problems ++ " problem(s) found"
    ⟨disk, printed ++ [verdict], .finished problems⟩
  | result :: rest =>
    match fixedText? fix result with
    | none =>
      settle parser settings fix disk (printed ++ result.lines) (problems + result.problems) rest
    | some text =>
      let written := disk.write (Path.ofText result.filename) (Utf8.encode text.toList)
      match Lint.text parser settings result.filename text with
      | .error fault => ⟨written, printed, .badImport fault⟩
      | .ok remaining =>
        let left := { result with diagnostics := remaining }
        settle parser settings fix written (printed ++ left.lines) (problems + left.problems) rest

/-- A value that was given and is empty is shown as a pair of brackets. -/
def shownValue (value : Option String) : String :=
  value.getD "[]"

def banner (arguments : Arguments) : List String :=
  ["🚀 Starting server at http://" ++ shownValue arguments.host ++ ":" ++
      shownValue (arguments.portNumber.map toString),
    "   Press Ctrl+C to stop."]

def runWith (parser : Parser) (disk : Disk) (arguments : Arguments) : Outcome :=
  if arguments.serve then
    ⟨disk, banner arguments, .served arguments.host arguments.portNumber⟩
  else
    match arguments.settings? with
    | none => ⟨disk, [], .namelessGlobal⟩
    | some settings =>
      match lintPaths parser disk settings arguments.fix arguments.paths with
      | .error ending => ⟨disk, [], ending⟩
      | .ok results => settle parser settings arguments.fix disk [] 0 results

/-- Runs the command line with given words. -/
def run (parser : Parser) (disk : Disk) (words : List String) : Outcome :=
  match Arguments.ofWords words with
  | .error refusal => ⟨disk, [], .refused refusal⟩
  | .ok arguments => runWith parser disk arguments

end TagScope.CommandLine
