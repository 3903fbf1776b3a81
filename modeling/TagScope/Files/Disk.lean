import TagScope.Files.Path
import TagScope.Text.Quoted
import TagScope.Text.Utf8

/-!
A disk as a value: a tree of directories with a working directory in it. There are
no links, so a path leads to at most one entry, and two dots lead back to where
the path came from. Names and paths are limited in length, and a name never holds
a null character.
-/

set_option autoImplicit false

namespace TagScope

inductive Entry where
  | file (name : String) (content : Bytes)
  | directory (name : String) (entries : List Entry)
deriving Repr

def Entry.name : Entry → String
  | .file name _ => name
  | .directory name _ => name

structure Disk where
  entries : List Entry
  cwd : List String
deriving Repr

/-- What a path leads to. -/
inductive Found where
  | file (content : Bytes)
  | directory (entries : List Entry)
deriving Repr

/-- Why a path leads nowhere: an entry is missing, a file is used as a directory, or the
path is none that a disk could have. -/
inductive LookupFault where
  | missing
  | notDirectory
  | nameTooLong
  | nullByte
deriving DecidableEq, Repr

inductive PathError where
  | notFound (path : String)
  | alreadyThere (path : String)
  | notDirectory (path : String)
  | isDirectory (path : String)
  | nameTooLong (path : String)
  | nullByte
deriving DecidableEq, Repr

def PathError.message : PathError → String
  | .notFound path => "[Errno 2] No such file or directory: " ++ Quoted.quote path
  | .alreadyThere path => "[Errno 17] File exists: " ++ Quoted.quote path
  | .notDirectory path => "[Errno 20] Not a directory: " ++ Quoted.quote path
  | .isDirectory path => "[Errno 21] Is a directory: " ++ Quoted.quote path
  | .nameTooLong path => "[Errno 36] File name too long: " ++ Quoted.quote path
  | .nullByte => "embedded null byte"

def LookupFault.at (path : String) : LookupFault → PathError
  | .missing => .notFound path
  | .notDirectory => .notDirectory path
  | .nameTooLong => .nameTooLong path
  | .nullByte => .nullByte

/-- The longest name of an entry, in bytes. -/
def longestName : Nat := 255

/-- The longest path that can be looked up, in bytes. -/
def longestPath : Nat := 4095

def byteCount (text : String) : Nat :=
  (Utf8.encode text.toList).length

def Path.hasNull (path : Path) : Bool :=
  path.parts.any fun part ↦ part.toList.contains (Char.ofNat 0)

def entryNamed? (name : String) (entries : List Entry) : Option Entry :=
  entries.find? fun entry ↦ entry.name = name

/-- Follows a path from a directory, with the directories above it at hand. -/
def follow (here : List Entry) (above : List (List Entry)) :
    List String → Except LookupFault Found
  | [] => .ok (.directory here)
  | part :: rest =>
    if part = ".." then
      match above with
      | [] => follow here [] rest
      | up :: higher => follow up higher rest
    else if longestName < byteCount part then .error .nameTooLong
    else
      match entryNamed? part here with
      | none => .error .missing
      | some (.directory _ entries) => follow entries (here :: above) rest
      | some (.file _ content) =>
        if rest.isEmpty then .ok (.file content) else .error .notDirectory

/-- Puts an entry in the place of the one that has its name, or at the end. -/
def putEntry (entry : Entry) : List Entry → List Entry
  | [] => [entry]
  | other :: rest => if other.name = entry.name then entry :: rest else other :: putEntry entry rest

/-- The entries of a directory that is named among some entries; none if there is no
such directory. -/
def entriesOf (name : String) (entries : List Entry) : List Entry :=
  match entryNamed? name entries with
  | some (.directory _ inner) => inner
  | _ => []

def writeAt (content : Bytes) : List String → List Entry → List Entry
  | [], entries => entries
  | [name], entries => putEntry (.file name content) entries
  | name :: rest, entries =>
    putEntry (.directory name (writeAt content rest (entriesOf name entries))) entries

def makeDirectoryAt : List String → List Entry → List Entry
  | [], entries => entries
  | name :: rest, entries =>
    putEntry (.directory name (makeDirectoryAt rest (entriesOf name entries))) entries

namespace Disk

/-- The absolute path that a path means on this disk. -/
def absolute (disk : Disk) (path : Path) : Path :=
  path.absolute disk.cwd

def find (disk : Disk) (path : Path) : Except LookupFault Found :=
  if path.hasNull then .error .nullByte
  else if longestPath < byteCount path.toText then .error .nameTooLong
  else
    follow disk.entries []
      (match path.anchor with
      | .relative => disk.cwd ++ path.parts
      | _ => path.parts)

/-- What a path leads to, if anything. Only a length leaves the question open. -/
def found? (disk : Disk) (path : Path) : Except PathError (Option Found) :=
  match disk.find path with
  | .ok found => .ok (some found)
  | .error .nameTooLong => .error (.nameTooLong path.toText)
  | .error _ => .ok none

def isPresent (disk : Disk) (path : Path) : Except PathError Bool :=
  (disk.found? path).map Option.isSome

def isFile (disk : Disk) (path : Path) : Except PathError Bool :=
  (disk.found? path).map fun
    | some (.file _) => true
    | _ => false

def read (disk : Disk) (path : Path) : Except PathError Bytes :=
  match disk.find path with
  | .ok (.file content) => .ok content
  | .ok (.directory _) => .error (.isDirectory path.toText)
  | .error fault => .error (fault.at path.toText)

/-- Writes a file, making the directories it lies in. -/
def write (disk : Disk) (path : Path) (content : Bytes) : Disk :=
  { disk with entries := writeAt content (disk.absolute path).parts disk.entries }

def makeDirectory (disk : Disk) (path : Path) : Disk :=
  { disk with entries := makeDirectoryAt (disk.absolute path).parts disk.entries }

/-- Makes a directory in one that is there already; one that is there itself is left alone. -/
def addDirectory (disk : Disk) (path : Path) : Except PathError Disk :=
  match disk.find path, disk.find path.parent with
  | .ok (.directory _), _ => .ok disk
  | .ok (.file _), _ => .error (.alreadyThere path.toText)
  | .error .missing, .ok (.directory _) => .ok (disk.makeDirectory path)
  | .error fault, _ => .error (fault.at path.toText)

/-- Makes a directory, after those that are missing above it. The parts of its path are
given from the last one on. What has been made stays when a later step fails. A part
that is followed by two dots is made as well, since a path only leads through
directories that are there. -/
def addDirectories (disk : Disk) (anchor : Anchor) : List String → Disk × Option PathError
  | [] =>
    match disk.addDirectory ⟨anchor, []⟩ with
    | .ok made => (made, none)
    | .error error => (disk, some error)
  | last :: above =>
    let path : Path := ⟨anchor, (last :: above).reverse⟩
    match disk.addDirectory path with
    | .ok made => (made, none)
    | .error (.notFound _) =>
      match disk.addDirectories anchor above with
      | (made, some error) => (made, some error)
      | (made, none) =>
        match made.addDirectory path with
        | .ok complete => (complete, none)
        | .error error => (made, some error)
    | .error error => (disk, some error)

/-- Writes a file after making the directories that its path leads through, unless what is
on the disk stands in the way. -/
def save (disk : Disk) (path : Path) (content : Bytes) : Disk × Option PathError :=
  match disk.addDirectories path.anchor path.parent.parts.reverse with
  | (made, some error) => (made, some error)
  | (made, none) =>
    match made.find path with
    | .ok (.directory _) => (made, some (.isDirectory path.toText))
    | .ok (.file _) | .error .missing => (made.write path content, none)
    | .error fault => (made, some (fault.at path.toText))

end Disk

end TagScope
