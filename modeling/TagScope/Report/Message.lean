/-!
The messages of the rule. A message is a template whose slots are filled from the
data of a report; a slot without a datum stays as it is written.
-/

set_option autoImplicit false

namespace TagScope

inductive MessageId where
  | undefined
  | customDirectiveUndefined
  | autoImport
deriving DecidableEq, Repr

inductive TemplatePart where
  | words (text : String)
  | slot (name : String)
deriving DecidableEq, Repr

namespace TemplatePart

def written : TemplatePart → String
  | .words text => text
  | .slot name => "\x7b\x7b" ++ name ++ "\x7d\x7d"

def filled (data : List (String × String)) : TemplatePart → String
  | .words text => text
  | .slot name => (data.lookup name).getD (TemplatePart.slot name).written

end TemplatePart

namespace MessageId

def all : List MessageId := [.undefined, .customDirectiveUndefined, .autoImport]

def name : MessageId → String
  | .undefined => "undefined"
  | .customDirectiveUndefined => "customDirectiveUndefined"
  | .autoImport => "autoImport"

def ofName? (name : String) : Option MessageId :=
  all.find? fun id ↦ id.name = name

def template : MessageId → List TemplatePart
  | .undefined => [.words "'", .slot "identifier", .words "' is not defined."]
  | .customDirectiveUndefined =>
    [.words "Custom directive '", .slot "identifier", .words "' is not defined."]
  | .autoImport =>
    [.slot "imports", .words " should be imported from '", .slot "source", .words "'."]

def written (id : MessageId) : String :=
  String.join (id.template.map TemplatePart.written)

def fill (id : MessageId) (data : List (String × String)) : String :=
  String.join (id.template.map (TemplatePart.filled data))

end MessageId

/-- Names as prose: one, two joined by "and", or a series with a comma before the
"and". -/
def proseList (names : List String) : String :=
  let quoted := names.map fun name ↦ "'" ++ name ++ "'"
  match quoted with
  | [] => ""
  | [one] => one
  | [first, second] => first ++ " and " ++ second
  | _ => String.intercalate ", " quoted.dropLast ++ ", and " ++ quoted.getLastD ""

end TagScope
