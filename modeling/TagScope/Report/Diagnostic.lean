import TagScope.Document
import TagScope.Edit
import TagScope.Report.Message

/-!
Diagnostics: what was found, where, and the edit that mends it. The message and
its data follow from the finding.
-/

set_option autoImplicit false

namespace TagScope

inductive Finding where
  | undefinedName (name : String)
  | undefinedDirective (name : String)
  | missingImports (names : List String) (source : String)
deriving DecidableEq, Repr

namespace Finding

def messageId : Finding → MessageId
  | .undefinedName _ => .undefined
  | .undefinedDirective _ => .customDirectiveUndefined
  | .missingImports _ _ => .autoImport

def data : Finding → List (String × String)
  | .undefinedName name => [("identifier", name)]
  | .undefinedDirective name => [("identifier", name)]
  | .missingImports names source => [("imports", proseList names), ("source", source)]

def message (finding : Finding) : String :=
  finding.messageId.fill finding.data

end Finding

structure Diagnostic where
  finding : Finding
  position : Position
  fix : Option Edit
deriving DecidableEq, Repr

namespace Diagnostic

/-- A diagnostic at a node. -/
def atNode (doc : Document) (n : Node) (finding : Finding) (fix : Option Edit) : Diagnostic :=
  ⟨finding, doc.positionOf n, fix⟩

/-- The order of a report: by line, then by column. -/
def notAfter (a b : Diagnostic) : Bool :=
  decide (a.position.line < b.position.line) ||
    (decide (a.position.line = b.position.line) && decide (a.position.column ≤ b.position.column))

end Diagnostic

/-- A text with the edits of its diagnostics applied. -/
def fixedText (source : String) (diagnostics : List Diagnostic) : String :=
  Edit.applyAll source (diagnostics.filterMap Diagnostic.fix)

end TagScope
