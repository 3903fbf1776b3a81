import TagScope.Scope.Graph
import TagScope.Scope.Pattern

/-!
What a single node does to the scope graph: whether it opens a scope, and which
identifiers it declares and where. Both are read off the node, its parent and its
grandparent.
-/

set_option autoImplicit false

namespace TagScope

namespace Kind

def functions : List String :=
  ["function_declaration", "generator_function_declaration", "function_expression", "function",
    "generator_function", "arrow_function", "method_definition"]

def classes : List String :=
  ["class_declaration", "abstract_class_declaration", "class"]

def loops : List String :=
  ["for_statement", "for_in_statement"]

end Kind

namespace Node

def isFunction (n : Node) : Bool := n.isAmong Kind.functions

def isClass (n : Node) : Bool := n.isAmong Kind.classes

end Node

namespace Site

/-- Whether a node opens a scope. Keywords share the kinds of the nodes they
begin, so only named nodes do; the body of a function or a catch clause shares the
scope of its owner. -/
def opensScope (s : Site) : Bool :=
  s.node.named &&
    (s.node.isFunction || s.node.isClass ||
      (s.node.kind = "statement_block" &&
        !s.parent?.any fun parent ↦ parent.isFunction || parent.kind = "catch_clause") ||
      s.node.isAmong Kind.loops || s.node.kind = "catch_clause" ||
      s.node.kind = "switch_statement")

def scopeKind (s : Site) : ScopeKind :=
  if s.node.isFunction then .function
  else if s.node.isClass then .classBody
  else if s.node.isAmong Kind.loops then .loop
  else if s.node.kind = "catch_clause" then .catchClause
  else if s.node.kind = "switch_statement" then .switchBody
  else .block

end Site

/-- Where a declared name goes: to the innermost scope around the declaring node
(the one it opens included), to the scope around that one, or to the nearest scope
that owns `var` declarations. -/
inductive Destination where
  | current
  | enclosing
  | varOwner
deriving DecidableEq, Repr

structure Declaration where
  destination : Destination
  kind : String
  identifier : Site
deriving Repr

namespace Site

def declareAll (destination : Destination) (kind : String) (identifiers : List Site) :
    List Declaration :=
  identifiers.map fun identifier ↦ ⟨destination, kind, identifier⟩

def fieldSites (s : Site) (name : String) : List Site :=
  (s.child? name).toList

def patternSites (s : Site) (name : String) : List Site :=
  (s.fieldSites name).flatMap boundIdentifiers

/-- Names declared by `var` leave blocks, loops, catch clauses and classes. -/
def destinationOf (word : String) : Destination :=
  if word = "var" then .varOwner else .current

/-- The word that declares a variable: that of its lexical declaration, written in
the field `kind` or standing first, else `var`. -/
def declaratorWord (s : Site) : String :=
  match s.parent? with
  | some declaration =>
    if declaration.kind = "lexical_declaration" then
      (((declaration.child? "kind").or declaration.children.head?).map fun word ↦
        word.kind).getD "let"
    else "var"
  | none => "var"

/-- The local name of an import specifier: its alias, or else its name. -/
def specifierName? (s : Site) : Option Site :=
  (s.child? "alias").or (s.child? "name")

/-- The identifiers bound by one part of an import clause. -/
def importClausePart (s : Site) : List Site :=
  if s.node.kind = "identifier" then [s]
  else if s.node.kind = "namespace_import" then (s.childOfKind? "identifier").toList
  else if s.node.kind = "named_imports" then
    (s.children.filter fun part ↦ part.node.kind = "import_specifier").filterMap specifierName?
  else []

/-- The identifiers bound by an import statement: the name of a required module,
or those of its clause. -/
def importedSites (s : Site) : List Site :=
  match s.childOfKind? "import_require_clause" with
  | some clause => (clause.childOfKind? "identifier").toList
  | none =>
    match s.childOfKind? "import_clause" with
    | some clause => clause.children.flatMap importClausePart
    | none => []

/-- A parameter's pattern stands in its field, or is its first named child. -/
def parameterPattern? (s : Site) : Option Site :=
  (s.child? "pattern").or s.namedChildren.head?

/-- The word of a `for … in` or `for … of` head that declares its variable. -/
def loopWord? (s : Site) : Option String :=
  (s.node.children.map fun c ↦ c.kind).find? fun kind ↦ ["const", "let", "var"].contains kind

/-- The names that one node declares, in order. -/
def declarations (s : Site) : List Declaration :=
  if !s.node.named then []
  else
    match s.node.kind with
    | "import_statement" => declareAll .current "import" s.importedSites
    | "variable_declarator" =>
      declareAll (destinationOf s.declaratorWord) s.declaratorWord (s.patternSites "name")
    | "required_parameter" | "optional_parameter" =>
      if s.grandparent?.any Node.isFunction then
        declareAll .current "param" (s.parameterPattern?.toList.flatMap boundIdentifiers)
      else []
    | "arrow_function" => declareAll .current "param" (s.fieldSites "parameter")
    | "catch_clause" => declareAll .current "catch" (s.patternSites "parameter")
    | "function_declaration" | "generator_function_declaration" =>
      declareAll .enclosing "function" (s.fieldSites "name")
    | "function_expression" | "function" | "generator_function" | "function_signature" =>
      declareAll .current "function" (s.fieldSites "name")
    | "class_declaration" | "abstract_class_declaration" =>
      declareAll .enclosing "class" (s.fieldSites "name") ++
        declareAll .current "class" (s.fieldSites "name")
    | "class" => declareAll .current "class" (s.fieldSites "name")
    | "for_in_statement" =>
      match s.loopWord? with
      | some word => declareAll (destinationOf word) word (s.patternSites "left")
      | none => []
    | "type_parameter" =>
      if s.grandparent?.any fun owner ↦ owner.isFunction || owner.isClass then
        declareAll .current "type" (s.fieldSites "name")
      else []
    | "enum_declaration" => declareAll .current "enum" (s.fieldSites "name")
    | "interface_declaration" | "type_alias_declaration" =>
      declareAll .current "type" (s.fieldSites "name")
    | "internal_module" =>
      declareAll .current "namespace"
        ((s.fieldSites "name").filter fun name ↦ name.node.kind = "identifier")
    | _ => []

end Site

end TagScope
