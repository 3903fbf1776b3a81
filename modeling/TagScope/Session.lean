import TagScope.Lint.Source

/-!
An editing session: a text that is linted, fixed and edited in turn.
-/

set_option autoImplicit false

namespace TagScope

structure Session where
  text : String
  filename : String
  settings : Settings
deriving Repr

namespace Session

def lint (parser : Parser) (session : Session) : Except ImportFault (List Diagnostic) :=
  Lint.text parser session.settings session.filename session.text

/-- The diagnostics of the current text, and the session after their fixes. -/
def fix (parser : Parser) (session : Session) : Except ImportFault (List Diagnostic × Session) :=
  (session.lint parser).map fun diagnostics ↦
    (diagnostics, { session with text := fixedText session.text diagnostics })

def edit (session : Session) (e : Edit) : Session :=
  { session with text := String.ofList (e.apply session.text.toList) }

def configure (session : Session) (settings : Settings) : Session :=
  { session with settings := settings }

end Session

end TagScope
