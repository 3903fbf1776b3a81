import TagScope.Imports.Statement
import TagScope.Report.Diagnostic

/-!
The edit that imports missing names: an existing import of the module is extended
where its form allows, and otherwise a new statement is placed at the top of the
document, below a hashbang line and a directive prologue.
-/

set_option autoImplicit false

namespace TagScope

/-- A statement is extended after its first token or its opening brace; a damaged
tree may lack them. -/
inductive ImportFault where
  | childless
deriving DecidableEq, Repr

def ImportFault.message : ImportFault → String
  | .childless => "list index out of range"

def joinNames (names : List String) : String :=
  String.intercalate ", " names

def bracedNames (names : List String) : String :=
  "\x7b " ++ joinNames names ++ " \x7d"

def importStatement (source : String) (names : List String) : String :=
  "import " ++ bracedNames names ++ " from \"" ++ source ++ "\";"

/-- Text to be put in at a byte offset. -/
structure Insertion where
  offset : Nat
  text : String
deriving DecidableEq, Repr

def Insertion.afterFirstChild (n : Node) (text : String) : Except ImportFault Insertion :=
  match n.children.head? with
  | some first => .ok ⟨first.stop, text⟩
  | none => .error .childless

namespace Node

/-- An expression statement that is just a string. -/
def isStringStatement (n : Node) : Bool :=
  n.kind = "expression_statement" &&
    match n.namedChildren with
    | [only] => only.kind = "string"
    | _ => false

def isComment (n : Node) : Bool :=
  n.kind = "comment"

/-- Whether a statement has to stay at the top: a hashbang line or a directive. -/
def isPrologue (n : Node) : Bool :=
  n.kind = "hash_bang_line" || n.isStringStatement

/-- The last hashbang line or directive of the leading run, comments skipped. -/
def prologueEnd? (root : Node) : Option Node :=
  ((root.namedChildren.takeWhile fun n ↦ n.isComment || n.isPrologue).filter fun n ↦
    !n.isComment).getLast?

end Node

/-- A new import statement, above the first one there is, or else below the
prologue. -/
def newImport (root : Node) (source : String) (names : List String) : Insertion :=
  let statement := importStatement source names
  match root.namedChildren.find? Node.isImport with
  | some first => ⟨first.start, statement ++ "\n"⟩
  | none =>
    match root.prologueEnd? with
    | some last => ⟨last.stop, "\n" ++ statement⟩
    | none => ⟨0, statement ++ "\n"⟩

namespace Document

variable (doc : Document)

/-- An insertion in the offsets of a report. -/
def editOf (insertion : Insertion) : Edit :=
  Edit.insertion (doc.charsBefore insertion.offset) insertion.text

/-- Extends an import statement by names. It gains braces after the keyword, a
specifier after its last one, a first specifier in empty braces, or braces after
its default binding; a namespace import takes no specifiers and gets a statement
of its own above it. -/
def extended (statement : Node) (names : List String) : Except ImportFault Insertion :=
  match statement.childOfKind? "import_clause" with
  | none => Insertion.afterFirstChild statement (" " ++ bracedNames names ++ " from")
  | some clause =>
    match clause.childOfKind? "named_imports" with
    | some group =>
      match (group.childrenOfKind "import_specifier").getLast? with
      | some last => .ok ⟨last.stop, ", " ++ joinNames names⟩
      | none => Insertion.afterFirstChild group (" " ++ joinNames names ++ " ")
    | none =>
      match clause.childOfKind? "identifier", clause.childOfKind? "namespace_import" with
      | some binding, none => .ok ⟨binding.stop, ", " ++ bracedNames names⟩
      | _, _ =>
        .ok ⟨statement.start,
          importStatement ((doc.moduleOf? statement).getD "") names ++ "\n"⟩

/-- The insertion that adds to an import statement those names that it does not
bind, if there are any. -/
def addNames (statement : Node) (names : List String) :
    Except ImportFault (Option Insertion) :=
  let existing := doc.valueNames statement
  match names.filter fun name ↦ !existing.contains name with
  | [] => .ok none
  | missing => (doc.extended statement missing).map some

/-- The insertion that makes names of a module available, with the node it is
reported at. -/
def importFix (names : List String) (source : String) :
    Except ImportFault (Node × Option Insertion) :=
  match doc.valueImport? source with
  | some statement => (doc.addNames statement names).map fun fix ↦ (statement, fix)
  | none => .ok (doc.root, some (newImport doc.root source names))

/-- One diagnostic for all names missing from a module, none if there are no
names. -/
def importDiagnostic (names : List String) (source : String) :
    Except ImportFault (Option Diagnostic) :=
  if names.isEmpty then .ok none
  else
    (doc.importFix names source).map fun (anchor, fix) ↦
      some (Diagnostic.atNode doc anchor (.missingImports names source) (fix.map doc.editOf))

end Document

end TagScope
