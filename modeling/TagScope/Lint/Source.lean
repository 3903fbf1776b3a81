import TagScope.Files.Kind
import TagScope.Rule.Check

/-!
Linting a source text. The parser is a parameter: any function that gives a tree
for a content in a grammar.
-/

set_option autoImplicit false

namespace TagScope

abbrev Parser := Grammar → Bytes → Node

namespace Lint

def document (parser : Parser) (content : Bytes) (filename : String) : Document :=
  ⟨content, parser (FileName.grammar filename) content⟩

/-- The diagnostics of a text under a file name. -/
def text (parser : Parser) (settings : Settings) (filename text : String) :
    Except ImportFault (List Diagnostic) :=
  Rule.diagnose (document parser (Utf8.encode text.toList) filename) settings

/-- What a request to lint a text is answered with. -/
structure Response where
  filename : String
  diagnostics : List Diagnostic
  output : Option String
deriving Repr

def job (parser : Parser) (j : Job) : Except ImportFault Response :=
  (text parser j.settings j.filename j.source).map fun diagnostics ↦
    ⟨j.filename, diagnostics, if j.fix then some (fixedText j.source diagnostics) else none⟩

end Lint

end TagScope
