import TagScope.Syntax.Node

/-!
The scope graph. Scopes are numbered in the order in which they are opened, and
each knows only its parent, which was opened before it; children, ancestors and
the pre-order are read off the parents. The newest scope stands first in the
table, so that whatever lies above a scope is found among the scopes that follow
it.
-/

set_option autoImplicit false

namespace TagScope

inductive ScopeKind where
  | global
  | module
  | function
  | classBody
  | block
  | loop
  | catchClause
  | switchBody
  | other (name : String)
deriving DecidableEq, Repr

namespace ScopeKind

def name : ScopeKind → String
  | .global => "global"
  | .module => "module"
  | .function => "function"
  | .classBody => "class"
  | .block => "block"
  | .loop => "for"
  | .catchClause => "catch"
  | .switchBody => "switch"
  | .other name => name

def ofName (name : String) : ScopeKind :=
  ([.global, .module, .function, .classBody, .block, .loop, .catchClause, .switchBody].find?
    fun kind ↦ kind.name = name).getD (.other name)

/-- Whether a scope of this kind owns the `var` declarations below it. -/
def ownsVars : ScopeKind → Bool
  | .function | .module | .global => true
  | _ => false

end ScopeKind

/-- A name that a scope binds. The kind is the word that declares it; a name that
is configured rather than declared has no origin. -/
structure Binding where
  name : String
  kind : String
  origin : Option Site
deriving Repr

structure Scope where
  kind : ScopeKind
  parent : Option Nat
  block : Option Site
  bindings : List Binding
deriving Repr

structure ScopeGraph where
  newestFirst : List Scope
deriving Repr

namespace ScopeGraph

def empty : ScopeGraph := ⟨[]⟩

def size (g : ScopeGraph) : Nat :=
  g.newestFirst.length

/-- Opens a scope without bindings. Its number is the graph's size before. -/
def openScope (g : ScopeGraph) (kind : ScopeKind) (parent : Option Nat) (block : Option Site) :
    ScopeGraph :=
  ⟨⟨kind, parent, block, []⟩ :: g.newestFirst⟩

def getIn : List Scope → Nat → Option Scope
  | [], _ => none
  | scope :: older, id => if id = older.length then some scope else getIn older id

def get? (g : ScopeGraph) (id : Nat) : Option Scope :=
  getIn g.newestFirst id

def bindings (g : ScopeGraph) (id : Nat) : List Binding :=
  (g.get? id).elim [] Scope.bindings

def parent? (g : ScopeGraph) (id : Nat) : Option Nat :=
  (g.get? id).bind Scope.parent

def kind? (g : ScopeGraph) (id : Nat) : Option ScopeKind :=
  (g.get? id).map Scope.kind

def names (g : ScopeGraph) (id : Nat) : List String :=
  (g.bindings id).map Binding.name

def bindIn (binding : Binding) : List Scope → Nat → List Scope
  | [], _ => []
  | scope :: older, id =>
    if id = older.length then { scope with bindings := scope.bindings ++ [binding] } :: older
    else scope :: bindIn binding older id

/-- Adds a binding to a scope; an empty name binds nothing. -/
def bind (g : ScopeGraph) (id : Nat) (binding : Binding) : ScopeGraph :=
  if binding.name = "" then g else ⟨bindIn binding g.newestFirst id⟩

def childrenIn : List Scope → Nat → List Nat
  | [], _ => []
  | scope :: older, id =>
    childrenIn older id ++ if scope.parent = some id then [older.length] else []

/-- The scopes opened under a scope, in order. -/
def children (g : ScopeGraph) (id : Nat) : List Nat :=
  childrenIn g.newestFirst id

def lineageIn : List Scope → Nat → List Nat
  | [], _ => []
  | scope :: older, id =>
    if id = older.length then id :: scope.parent.elim [] (lineageIn older)
    else lineageIn older id

/-- A scope, its parent, and so on up. -/
def lineage (g : ScopeGraph) (id : Nat) : List Nat :=
  lineageIn g.newestFirst id

def preorderWithin (g : ScopeGraph) : Nat → Nat → List Nat
  | 0, _ => []
  | depth + 1, id => id :: (g.children id).flatMap (preorderWithin g depth)

/-- A scope and all scopes below it, parents first. No chain of scopes is longer
than the table. -/
def preorder (g : ScopeGraph) (id : Nat) : List Nat :=
  g.preorderWithin g.size id

def openedAtIn (address : Address) : List Scope → Option Nat
  | [] => none
  | scope :: older =>
    if scope.block.map Site.address = some address then some older.length
    else openedAtIn address older

/-- The newest scope that the node at an address opened. -/
def openedAt (g : ScopeGraph) (address : Address) : Option Nat :=
  openedAtIn address g.newestFirst

/-- The innermost scope around an address; the first scope lies around them all. -/
def innermost (g : ScopeGraph) : Address → Nat
  | [] => (g.openedAt []).getD 0
  | index :: above => (g.openedAt (index :: above)).getD (g.innermost above)

end ScopeGraph

end TagScope
