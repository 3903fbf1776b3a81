import TagScope.Stable
import TagScope.Value.Told

/-!
Issues of data that should have been settings or a request. All issues of a value
are found, each with the place where it lies and the data that lies there, and they
are listed in the order of their places.
-/

set_option autoImplicit false

namespace TagScope

inductive IssueKind where
  | boolParsing
  | boolType
  | stringType
  | stringUnicode
  | listType
  | sourceTypeLiteral
  | modelType (model : String)
  | attributesType
  | missing
  | extraForbidden
  | jsonInvalid
deriving DecidableEq, Repr

namespace IssueKind

def code : IssueKind → String
  | .boolParsing => "bool_parsing"
  | .boolType => "bool_type"
  | .stringType => "string_type"
  | .stringUnicode => "string_unicode"
  | .listType => "list_type"
  | .sourceTypeLiteral => "literal_error"
  | .modelType _ => "model_type"
  | .attributesType => "model_attributes_type"
  | .missing => "missing"
  | .extraForbidden => "extra_forbidden"
  | .jsonInvalid => "json_invalid"

def message : IssueKind → String
  | .boolParsing => "Input should be a valid boolean, unable to interpret input"
  | .boolType => "Input should be a valid boolean"
  | .stringType => "Input should be a valid string"
  | .stringUnicode =>
    "Input should be a valid string, unable to parse raw data as a unicode string"
  | .listType => "Input should be a valid list"
  | .sourceTypeLiteral => "Input should be 'module' or 'script'"
  | .modelType model => "Input should be a valid dictionary or instance of " ++ model
  | .attributesType => "Input should be a valid dictionary or object to extract fields from"
  | .missing => "Field required"
  | .extraForbidden => "Extra inputs are not permitted"
  | .jsonInvalid => "JSON decode error"

/-- What an issue says besides its message. -/
def context : IssueKind → List (Text × Value)
  | .sourceTypeLiteral => [("ctx", .object [("expected", .ofText "'module' or 'script'")])]
  | .modelType model => [("ctx", .object [("class_name", .ofText model)])]
  | _ => []

end IssueKind

/-- A step into data: to a member of an object, or to an item of an array. -/
inductive Step where
  | member (key : String)
  | item (index : Nat)
deriving DecidableEq, Repr

namespace Step

def text : Step → String
  | .member key => key
  | .item index => toString index

def toValue : Step → Value
  | .member key => .ofText key
  | .item index => .ofNat index

end Step

structure Issue where
  kind : IssueKind
  location : List Step
  input : Value
deriving Repr

namespace Issue

def under (step : Step) (issue : Issue) : Issue :=
  { issue with location := step :: issue.location }

/-- The place of an issue as texts, by which issues are put in order. -/
def place (issue : Issue) : List String :=
  issue.location.map Step.text

def notAfter (a b : Issue) : Bool :=
  if a.place = b.place then Stable.textLe a.kind.code b.kind.code
  else Stable.lexLe Stable.textLe a.place b.place

def sort (issues : List Issue) : List Issue :=
  Stable.sort notAfter issues

def toValue (issue : Issue) : Value :=
  .array [.ofText issue.kind.code, .ofTexts issue.place, .ofText issue.kind.message]

/-- All that is told of an issue, the data included but for its bookkeeping. -/
def details (issue : Issue) : Value :=
  .object (("type", .ofText issue.kind.code) ::
    ("loc", .array (issue.location.map Step.toValue)) ::
    ("msg", .ofText issue.kind.message) :: ("input", issue.input.told) :: issue.kind.context)

end Issue

/-- A value read from data, or all the issues that stand in its way. -/
abbrev Validated (α : Type) := Except (List Issue) α

namespace Validated

variable {α : Type}

def issues : Validated α → List Issue
  | .ok _ => []
  | .error issues => issues

def under (step : Step) : Validated α → Validated α
  | .ok a => .ok a
  | .error issues => .error (issues.map (Issue.under step))

/-- A failure of some data as a whole. -/
def fail (kind : IssueKind) (input : Value) : Validated α :=
  .error [⟨kind, [], input⟩]

end Validated

end TagScope
