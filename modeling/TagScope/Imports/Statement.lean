import TagScope.Document

/-!
Reading import statements: the module they name, their clause, and the names they
bind as values.
-/

set_option autoImplicit false

namespace TagScope

namespace Node

def isImport (n : Node) : Bool :=
  n.kind = "import_statement"

def childOfKind? (n : Node) (kind : String) : Option Node :=
  n.children.find? fun c ↦ c.kind = kind

def childrenOfKind (n : Node) (kind : String) : List Node :=
  n.children.filter fun c ↦ c.kind = kind

end Node

namespace Document

variable (doc : Document)

/-- Whether a statement or a specifier carries the keyword `type`. -/
def isForTypes (n : Node) : Bool :=
  n.children.any fun c ↦ c.kind = "type" && doc.bytesOf c = Utf8.encode "type".toList

/-- The module that an import statement names: the literal without its quotes,
taken as it stands. -/
def moduleOf? (statement : Node) : Option String :=
  match statement.child? "source" with
  | some source =>
    if source.kind = "string" then
      some (String.ofList (Slice.between (doc.nameOf source).toList 1 (-1)))
    else none
  | none => none

/-- The first import of a module at the top level that is not for types alone. -/
def valueImport? (source : String) : Option Node :=
  doc.root.namedChildren.find? fun statement ↦
    statement.isImport && !doc.isForTypes statement &&
      doc.moduleOf? statement = some source

/-- The local names bound by the value specifiers of an import statement. -/
def valueNames (statement : Node) : List String :=
  match statement.childOfKind? "import_clause" with
  | some clause =>
    (clause.childrenOfKind "named_imports").flatMap fun group ↦
      ((group.childrenOfKind "import_specifier").filter fun specifier ↦
        !doc.isForTypes specifier).filterMap fun specifier ↦
          ((specifier.child? "alias").or (specifier.child? "name")).map doc.nameOf
  | none => []

end Document

end TagScope
