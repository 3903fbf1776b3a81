import TagScope.Files.Disk
import TagScope.Files.Kind
import TagScope.Ignore.File
import TagScope.Stable

/-!
Collecting the files to lint under a directory. The ignore files of the whole
repository make one list of rules; a directory that is ignored, or whose name is
one of those never linted, is not entered, and one whose path is too long to be
opened is passed over.
-/

set_option autoImplicit false

namespace TagScope

/-- The ignore file among the entries of the directory `base`. -/
def ownIgnoreFile (base : List String) (entries : List Entry) : List (List String × Bytes) :=
  match entryNamed? Ignore.fileName entries with
  | some (.file _ content) => [(base, content)]
  | _ => []

mutual

/-- The ignore files of a directory and of those beneath it, each with the
directory it lies in. -/
def Entry.ignoreFiles (base : List String) : Entry → List (List String × Bytes)
  | .file _ _ => []
  | .directory name entries =>
    if FileName.skippedDirectories.contains name then []
    else
      ownIgnoreFile (base ++ [name]) entries ++ Entry.ignoreFilesBelow (base ++ [name]) entries

def Entry.ignoreFilesBelow (base : List String) : List Entry → List (List String × Bytes)
  | [] => []
  | entry :: rest => entry.ignoreFiles base ++ Entry.ignoreFilesBelow base rest

end

mutual

/-- The files of a tree that are kept, in kept directories only. -/
def Entry.kept (keepsDirectory keepsFile : Path → Bool) (above : Path) : Entry → List Path
  | .file name _ => if keepsFile (above.join name) then [above.join name] else []
  | .directory name entries =>
    if keepsDirectory (above.join name) then
      Entry.keptOfAll keepsDirectory keepsFile (above.join name) entries
    else []

def Entry.keptOfAll (keepsDirectory keepsFile : Path → Bool) (above : Path) :
    List Entry → List Path
  | [] => []
  | entry :: rest =>
    entry.kept keepsDirectory keepsFile above ++
      Entry.keptOfAll keepsDirectory keepsFile above rest

end

/-- A list of parts and its beginnings, longest first. -/
def beginnings : List String → List (List String)
  | [] => [[]]
  | part :: rest => ((beginnings rest).map (part :: ·)) ++ [[]]

/-- Why no files can be collected: a path cannot be looked up, or a pattern is refused. -/
inductive CollectError where
  | path (error : PathError)
  | pattern (error : Ignore.PatternError)
deriving DecidableEq, Repr

def CollectError.message : CollectError → String
  | .path error => error.message
  | .pattern error => error.message

namespace Disk

/-- The first of some directories that holds `.git`. -/
def firstRepository? (disk : Disk) : List (List String) → Except PathError (Option Path)
  | [] => .ok none
  | parts :: rest =>
    match disk.isPresent ⟨.root, parts ++ [".git"]⟩ with
    | .error error => .error error
    | .ok true => .ok (some ⟨.root, parts⟩)
    | .ok false => disk.firstRepository? rest

/-- The nearest directory at or above a place that holds `.git`, or else the place
itself. -/
def repositoryRoot (disk : Disk) (path : Path) : Except PathError Path :=
  if path.hasNull then .error .nullByte
  else
    let start := path.place disk.cwd
    (disk.firstRepository? (beginnings start.parts)).map fun found ↦ found.getD start

/-- The patterns of all ignore files beneath a repository root. -/
def ignorePatterns (disk : Disk) (root : Path) : List (List Char) :=
  match disk.find root with
  | .ok (.directory entries) =>
    (ownIgnoreFile [] entries ++ Entry.ignoreFilesBelow [] entries).flatMap fun (base, content) ↦
      Ignore.patterns content (String.intercalate "/" base)
  | _ => []

/-- The text in which a path is matched: relative to the repository root if it lies
below it, and without a leading slash in any case. -/
def matchedText (root path : Path) : List Char :=
  match ((path.relativeTo? root).getD path).toText.toList with
  | '/' :: rest => rest
  | text => text

def isIgnored (root : Path) (rules : List Ignore.Rule) (path : Path) : Bool :=
  Ignore.ignores rules (matchedText root path)

/-- Whether a directory beneath `start` can be opened. Paths are limited in length, and
beneath the working directory they begin with a dot and a slash. -/
def opens (start path : Path) : Bool :=
  decide (byteCount path.toText + (if start = ⟨.relative, []⟩ then 2 else 0) ≤ longestPath)

def keepsDirectory (start root : Path) (rules : List Ignore.Rule) (path : Path) : Bool :=
  !FileName.skippedDirectories.contains path.name && !isIgnored root rules path &&
    opens start path

def keepsFile (root : Path) (rules : List Ignore.Rule) (path : Path) : Bool :=
  FileName.isSource path && !isIgnored root rules path

/-- The files to lint under a directory, in code point order, for given rules. -/
def sourcesUnder (disk : Disk) (directory root : Path) (rules : List Ignore.Rule) : List String :=
  match disk.find directory with
  | .ok (.directory entries) =>
    Stable.sort Stable.textLe
      ((Entry.keptOfAll (keepsDirectory directory root rules) (keepsFile root rules) directory
        entries).map Path.toText)
  | _ => []

/-- The files to lint at a path. A file that is named is not subject to ignore
files. -/
def sources (disk : Disk) (path : Path) : Except CollectError (List String) :=
  match disk.isFile path, disk.repositoryRoot path with
  | .error error, _ => .error (.path error)
  | .ok true, _ => .ok (if FileName.isSource path then [path.toText] else [])
  | .ok false, .error error => .error (.path error)
  | .ok false, .ok root =>
    match Ignore.rulesOf (disk.ignorePatterns root) with
    | .error error => .error (.pattern error)
    | .ok rules => .ok (disk.sourcesUnder path root rules)

end Disk

end TagScope
