import TagScope.Imports.Fix
import TagScope.Jsx.Candidate
import TagScope.Settings.Basic

/-!
The rule: a name used in JSX must be bound. Unbound names are reported where they
stand; control-flow components of the framework are gathered over the whole
document instead, and reported once with the edit that imports them.
-/

set_option autoImplicit false

namespace TagScope

/-- Distinct names in the order of their first addition. -/
structure NameSet where
  names : List String
deriving DecidableEq, Repr

namespace NameSet

def empty : NameSet := ⟨[]⟩

def contains (set : NameSet) (name : String) : Bool :=
  set.names.contains name

def add (set : NameSet) (name : String) : NameSet :=
  if set.contains name then set else ⟨set.names ++ [name]⟩

end NameSet

namespace Rule

/-- The control-flow components that can be imported. -/
def importable : List String :=
  ["Show", "For", "Index", "Switch", "Match"]

def framework : String := "solid-js"

structure Scan where
  diagnostics : List Diagnostic
  missing : NameSet
deriving Repr

def Scan.empty : Scan := ⟨[], .empty⟩

/-- Enters an unbound candidate. No type checker looks at directives, so they are
reported in any case; other names may be left to one. -/
def Scan.enter (doc : Document) (options : Options) (scan : Scan)
    (candidate : Jsx.Candidate) : Scan :=
  let report (finding : Finding) : Scan :=
    { scan with
      diagnostics := scan.diagnostics ++ [Diagnostic.atNode doc candidate.site.node finding none] }
  if candidate.role = .component && options.autoImport && importable.contains candidate.name then
    { scan with missing := scan.missing.add candidate.name }
  else if candidate.role = .customDirective then report (.undefinedDirective candidate.name)
  else if options.typescriptEnabled then scan
  else report (.undefinedName candidate.name)

/-- Whether a candidate's name is bound where it stands. -/
def isBound (graph : ScopeGraph) (bound : ScopeKind) (candidate : Jsx.Candidate) : Bool :=
  graph.resolves candidate.name (graph.innermost candidate.site.address) bound

def unbound (doc : Document) (graph : ScopeGraph) (bound : ScopeKind) : List Jsx.Candidate :=
  (Jsx.candidates doc).filter fun candidate ↦ !isBound graph bound candidate

/-- The scope graph of a document under given settings. -/
def graphOf (doc : Document) (settings : Settings) : ScopeGraph :=
  ScopeGraph.ofDocument doc settings.sourceType settings.globals

/-- Walks the candidates in order and enters the unbound ones. -/
def scan (doc : Document) (settings : Settings) : Scan :=
  (unbound doc (graphOf doc settings) settings.searchBound).foldl
    (Scan.enter doc settings.options) .empty

/-- The diagnostic for the missing components, if they are to be imported. -/
def finish (doc : Document) (settings : Settings) (missing : NameSet) :
    Except ImportFault (Option Diagnostic) :=
  if settings.options.autoImport then doc.importDiagnostic missing.names framework
  else .ok none

/-- The diagnostics of a document in report order. -/
def diagnose (doc : Document) (settings : Settings) : Except ImportFault (List Diagnostic) :=
  let found := scan doc settings
  (finish doc settings found.missing).map fun last ↦
    Stable.sort Diagnostic.notAfter (found.diagnostics ++ last.toList)

end Rule

end TagScope
