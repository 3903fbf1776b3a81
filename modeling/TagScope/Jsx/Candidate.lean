import TagScope.Document

/-!
Names in JSX that must refer to a binding: the tag of a component, the leftmost
part of a member tag, and the name of a `use:` directive. Host elements,
namespaced tags and fragments refer to none.
-/

set_option autoImplicit false

namespace TagScope

mutual

/-- The leftmost part of a member expression, when it is an identifier or `this`.
Each step goes to the field `object` or, without one, to the first named child. -/
def Node.memberRoot (above : Ascent) : Node → Option Site
  | n@⟨label, children⟩ =>
    if ["member_expression", "nested_identifier"].contains label.kind then
      (Node.memberRootOfObject n above 0 children).getD
        (Node.memberRootOfNamed n above 0 children)
    else if ["identifier", "this"].contains label.kind then some ⟨n, above⟩
    else none

/-- The result for the first child with the field `object`, if there is one. -/
def Node.memberRootOfObject (parent : Node) (above : Ascent) (index : Nat) :
    List Node → Option (Option Site)
  | [] => none
  | c :: rest =>
    if c.field = some "object" then some (c.memberRoot ((index, parent) :: above))
    else Node.memberRootOfObject parent above (index + 1) rest

/-- The result for the first named child. -/
def Node.memberRootOfNamed (parent : Node) (above : Ascent) (index : Nat) :
    List Node → Option Site
  | [] => none
  | c :: rest =>
    if c.named then c.memberRoot ((index, parent) :: above)
    else Node.memberRootOfNamed parent above (index + 1) rest

end

namespace Jsx

/-- Names of host elements start with a small ASCII letter. -/
def isHostName (name : String) : Bool :=
  match name.toList with
  | c :: _ => decide ('a' ≤ c) && decide (c ≤ 'z')
  | [] => false

inductive Tag where
  | identifier (site : Site) (name : String)
  | member (root : Option Site)
  | other
deriving Repr

inductive Role where
  | component
  | identifier
  | customDirective
deriving DecidableEq, Repr

def Role.name : Role → String
  | .component => "component"
  | .identifier => "identifier"
  | .customDirective => "customDirective"

structure Candidate where
  name : String
  role : Role
  site : Site
deriving Repr

/-- The tag written by the name of an element; a fragment has no name. -/
def Tag.ofName (doc : Document) : Option Site → Tag
  | none => .other
  | some name =>
    if name.node.kind = "identifier" then .identifier name (doc.nameOf name.node)
    else if ["member_expression", "nested_identifier"].contains name.node.kind then
      .member (name.node.memberRoot name.above)
    else .other

def isElement (s : Site) : Bool :=
  ["jsx_opening_element", "jsx_self_closing_element"].contains s.node.kind

/-- The tag of an element. -/
def tagOf (doc : Document) (element : Site) : Tag :=
  Tag.ofName doc (element.child? "name")

def Tag.candidates (doc : Document) : Tag → List Candidate
  | .identifier site name => if isHostName name then [] else [⟨name, .component, site⟩]
  | .member (some root) => [⟨doc.nameOf root.node, .identifier, root⟩]
  | .member none | .other => []

/-- The namespace that makes an attribute a directive. -/
def directiveNamespace : String := "use"

/-- The name of a directive: the second of the two identifiers of the attribute's
name, when the first is the directive namespace. -/
def directive? (doc : Document) (s : Site) : Option Site :=
  match s.namedChildren with
  | full :: _ =>
    if full.node.kind = "jsx_namespace_name" then
      match full.namedChildren with
      | [space, name] =>
        if space.node.kind = "identifier" && name.node.kind = "identifier" &&
            doc.nameOf space.node = directiveNamespace then
          some name
        else none
      | _ => none
    else none
  | [] => none

/-- The candidates that one node brings in. -/
def candidatesAt (doc : Document) (s : Site) : List Candidate :=
  if isElement s then (tagOf doc s).candidates doc
  else if s.node.kind = "jsx_attribute" then
    (directive? doc s).toList.map fun name ↦
      ⟨doc.nameOf name.node, .customDirective, name⟩
  else []

/-- The candidates of a document, in the pre-order of the nodes that bring them in. -/
def candidates (doc : Document) : List Candidate :=
  doc.root.sites.flatMap (candidatesAt doc)

/-- The tags of a document's elements, in pre-order. -/
def tags (doc : Document) : List Tag :=
  (doc.root.sites.filter isElement).map (tagOf doc)

end Jsx

end TagScope
