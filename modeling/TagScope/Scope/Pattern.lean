import TagScope.Syntax.Node

/-!
Binding patterns. A pattern binds the identifiers that are reached from it
without entering a key, a default value, a type or an expression.
-/

set_option autoImplicit false

namespace TagScope

namespace Pattern

/-- What a node does for the pattern it stands in: it is bound, it leads on
through one field, it leads nowhere, or it leads on through its named children. -/
inductive Passage where
  | bound
  | field (name : String)
  | blocked
  | named
deriving DecidableEq, Repr

def binderKinds : List String :=
  ["identifier", "shorthand_property_identifier_pattern"]

def defaultedKinds : List String :=
  ["assignment_pattern", "object_assignment_pattern"]

def blockedKinds : List String :=
  ["type_annotation", "member_expression", "subscript_expression", "call_expression",
    "property_identifier", "this"]

def passage (kind : String) : Passage :=
  if binderKinds.contains kind then .bound
  else if kind = "pair_pattern" then .field "value"
  else if defaultedKinds.contains kind then .field "left"
  else if blockedKinds.contains kind then .blocked
  else .named

end Pattern

mutual

/-- The identifiers that a pattern binds, in source order. -/
def Node.boundSites (above : Ascent) : Node → List Site
  | n@⟨label, children⟩ =>
    match Pattern.passage label.kind with
    | .bound => [⟨n, above⟩]
    | .field name => Node.boundSitesOfField name n above 0 children
    | .blocked => []
    | .named => Node.boundSitesOfNamed n above 0 children

/-- The bound identifiers of the first child that has the field. -/
def Node.boundSitesOfField (name : String) (parent : Node) (above : Ascent) (index : Nat) :
    List Node → List Site
  | [] => []
  | c :: rest =>
    if c.field = some name then c.boundSites ((index, parent) :: above)
    else Node.boundSitesOfField name parent above (index + 1) rest

def Node.boundSitesOfNamed (parent : Node) (above : Ascent) (index : Nat) :
    List Node → List Site
  | [] => []
  | c :: rest =>
    (if c.named then c.boundSites ((index, parent) :: above) else []) ++
      Node.boundSitesOfNamed parent above (index + 1) rest

end

/-- The identifiers bound by a pattern at a site. -/
def Site.boundIdentifiers (s : Site) : List Site :=
  s.node.boundSites s.above

end TagScope
