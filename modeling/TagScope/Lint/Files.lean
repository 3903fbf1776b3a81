import TagScope.Files.Collect
import TagScope.Lint.Source
import TagScope.Report.Lines

/-!
Linting files on a disk. A source is read as strict UTF-8 with its line ends
normalized; where a single file fails, the failure becomes its result.
-/

set_option autoImplicit false

namespace TagScope

inductive FileError where
  | unreadable (error : PathError)
  | undecodable (error : Utf8.DecodeError)
  | imports (fault : ImportFault)
deriving DecidableEq, Repr

def FileError.message : FileError → String
  | .unreadable error => error.message
  | .undecodable error => error.message
  | .imports fault => fault.message

structure FileReport where
  filename : String
  diagnostics : List Diagnostic
  error : Option FileError
  output : Option String
deriving Repr

namespace FileReport

def failed (filename : String) (error : FileError) : FileReport :=
  ⟨filename, [], some error, none⟩

def hasFixes (result : FileReport) : Bool :=
  result.diagnostics.any fun d ↦ d.fix.isSome

def items (result : FileReport) : List Report.Item :=
  result.diagnostics.map fun d ↦
    ⟨d.position.line, d.position.column, d.finding.message, d.finding.messageId.name⟩

def lines (result : FileReport) : List String :=
  Report.lines result.filename (result.error.map FileError.message) result.items

/-- Every diagnostic is a problem, and so is a failure. -/
def problems (result : FileReport) : Nat :=
  result.diagnostics.length + if result.error.isSome then 1 else 0

end FileReport

namespace Lint

/-- The text of a source file. -/
def read (disk : Disk) (filename : String) : Except FileError String :=
  match disk.read (Path.ofText filename) with
  | .error error => .error (.unreadable error)
  | .ok content =>
    match Utf8.decode content with
    | .error error => .error (.undecodable error)
    | .ok text => .ok (String.ofList (LineBreak.normalize text))

def file (parser : Parser) (disk : Disk) (settings : Settings) (fix : Bool) (filename : String) :
    Except FileError FileReport :=
  match read disk filename with
  | .error error => .error error
  | .ok content =>
    match text parser settings filename content with
    | .error fault => .error (.imports fault)
    | .ok diagnostics =>
      .ok ⟨filename, diagnostics, none,
        if fix then some (fixedText content diagnostics) else none⟩

/-- The result for one file; a failure is a result too. -/
def attempt (parser : Parser) (disk : Disk) (settings : Settings) (fix : Bool)
    (filename : String) : FileReport :=
  match file parser disk settings fix filename with
  | .ok result => result
  | .error error => .failed filename error

/-- The results for all files at a path, in the order of their names. -/
def directory (parser : Parser) (disk : Disk) (settings : Settings) (fix : Bool) (path : Path) :
    Except CollectError (List FileReport) :=
  (disk.sources path).map fun filenames ↦
    filenames.map (attempt parser disk settings fix)

end Lint

end TagScope
