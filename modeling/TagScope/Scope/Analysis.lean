import TagScope.Document
import TagScope.Scope.Declaration

/-!
Scope analysis in one pass over a syntax tree. The pass carries the innermost
scope down the tree and grows the graph: a node that opens a scope does so before
its own declarations are entered and its children are visited.
-/

set_option autoImplicit false

namespace TagScope

inductive SourceType where
  | module
  | script
deriving DecidableEq, Repr

namespace SourceType

def name : SourceType → String
  | .module => "module"
  | .script => "script"

def ofName? (name : String) : Option SourceType :=
  [.module, .script].find? fun sourceType ↦ sourceType.name = name

end SourceType

namespace ScopeGraph

/-- The scope that a declared name goes to, seen from the innermost scope. -/
def destination (g : ScopeGraph) (current : Nat) : Destination → Nat
  | .current => current
  | .enclosing => (g.parent? current).getD current
  | .varOwner =>
    ((g.lineage current).find? fun id ↦ (g.kind? id).any ScopeKind.ownsVars).getD 0

def declare (doc : Document) (current : Nat) (g : ScopeGraph) (declaration : Declaration) :
    ScopeGraph :=
  g.bind (g.destination current declaration.destination)
    ⟨doc.nameOf declaration.identifier.node, declaration.kind, some declaration.identifier⟩

/-- Opens the scope of a site, if it has one, and gives the innermost scope for the
site and its children. -/
def enter (g : ScopeGraph) (current : Nat) (site : Site) : ScopeGraph × Nat :=
  if site.opensScope then (g.openScope site.scopeKind (some current) (some site), g.size)
  else (g, current)

mutual

def visit (doc : Document) (current : Nat) (above : Ascent) (g : ScopeGraph) : Node → ScopeGraph
  | n@⟨_, children⟩ =>
    let site : Site := ⟨n, above⟩
    let entered := g.enter current site
    visitAll doc entered.2 n above 0
      (site.declarations.foldl (declare doc entered.2) entered.1) children

def visitAll (doc : Document) (current : Nat) (parent : Node) (above : Ascent) (index : Nat)
    (g : ScopeGraph) : List Node → ScopeGraph
  | [] => g
  | c :: rest =>
    visitAll doc current parent above (index + 1)
      (visit doc current ((index, parent) :: above) g c) rest

end

/-- The global scope with the configured names and, for a module, the module scope
under it. The last one opened is the scope of the root. -/
def roots (root : Node) (sourceType : SourceType) (globals : List String) : ScopeGraph :=
  let ambient := globals.foldl (fun g name ↦ g.bind 0 ⟨name, "global", none⟩)
    (empty.openScope .global none (some (Site.root root)))
  match sourceType with
  | .module => ambient.openScope .module (some 0) (some (Site.root root))
  | .script => ambient

/-- The scope graph of a document. The root opens no scope of its own kind and
declares nothing. -/
def ofDocument (doc : Document) (sourceType : SourceType) (globals : List String) : ScopeGraph :=
  let start := roots doc.root sourceType globals
  visitAll doc (start.size - 1) doc.root [] 0 start doc.root.children

end ScopeGraph

end TagScope
