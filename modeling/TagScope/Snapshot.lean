import TagScope.Files.Disk
import TagScope.Lint.Source
import TagScope.Value

/-!
A snapshot of a working directory: its files, and the syntax trees of the texts
that may be linted. Parsing is done elsewhere, so a run of the linter starts from
a snapshot.
-/

set_option autoImplicit false

namespace TagScope

def Value.nat? : Value → Option Nat
  | .int n => if n < 0 then none else some n.toNat
  | _ => none

def Value.text? : Value → Option String
  | .text content => content.proper?
  | _ => none

/-- A label written as its kind, a one for a named node, its span and its field, which
is empty if it has none. -/
def Label.ofValues? (kind named start stop field : Value) : Option Label :=
  match kind.text?, named.nat?, start.nat?, stop.nat?, field.text? with
  | some kind, some named, some start, some stop, some field =>
    some ⟨kind, named != 0, start, stop, if field = "" then none else some field⟩
  | _, _, _, _, _ => none

mutual

/-- A node is written as its label, followed by the list of its children if it has
any. -/
def Node.ofValue? : Value → Option Node
  | .array [kind, named, start, stop, field] =>
    (Label.ofValues? kind named start stop field).map fun label ↦ ⟨label, []⟩
  | .array [kind, named, start, stop, field, .array children] =>
    match Label.ofValues? kind named start stop field, Node.ofValues? children with
    | some label, some children => some ⟨label, children⟩
    | _, _ => none
  | _ => none

def Node.ofValues? : List Value → Option (List Node)
  | [] => some []
  | first :: rest =>
    match Node.ofValue? first, Node.ofValues? rest with
    | some node, some nodes => some (node :: nodes)
    | _, _ => none

end

/-- The tree of a text in a grammar. -/
structure ParsedText where
  grammar : Grammar
  content : Bytes
  root : Node
deriving Repr

structure Snapshot where
  files : List (String × Bytes)
  trees : List ParsedText
deriving Repr

namespace Snapshot

/-- The tree of an empty program. -/
def emptyProgram : Node := ⟨⟨"program", true, 0, 0, none⟩, []⟩

/-- Looks trees up; a text that the snapshot does not know is taken for empty. -/
def parser (snapshot : Snapshot) : Parser := fun grammar content ↦
  ((snapshot.trees.find? fun tree ↦ tree.grammar = grammar && tree.content = content).map
    ParsedText.root).getD emptyProgram

/-- The disk with the files of a snapshot in its working directory. -/
def disk (snapshot : Snapshot) (cwd : List String) : Disk :=
  snapshot.files.foldl (fun disk file ↦ disk.write (Path.ofText file.1) file.2)
    (Disk.makeDirectory ⟨[], cwd⟩ (Path.ofText "."))

def fileOf? : Text × Value → Option (String × Bytes)
  | (.proper path, .text (.proper text)) => some (path, Utf8.encode text.toList)
  | _ => none

def treeOf? : Value → Option ParsedText
  | .object members =>
    match Value.lookup "grammar" members, Value.lookup "source" members,
      Value.lookup "root" members with
    | some (.text (.proper grammar)), some (.text (.proper source)), some root =>
      (Node.ofValue? root).map fun root ↦
        ⟨if grammar = "typescript" then .typescript else .tsx, Utf8.encode source.toList, root⟩
    | _, _, _ => none
  | _ => none

def ofValue? : Value → Option Snapshot
  | .object members =>
    match Value.lookup "files" members, Value.lookup "trees" members with
    | some (.object files), some (.array trees) =>
      match files.mapM fileOf?, trees.mapM treeOf? with
      | some files, some trees => some ⟨files, trees⟩
      | _, _ => none
    | _, _ => none
  | _ => none

end Snapshot

end TagScope
