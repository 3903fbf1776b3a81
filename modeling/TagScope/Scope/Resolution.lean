import TagScope.Scope.Analysis

/-!
Resolving a name from a scope. The search climbs to a bound, and at the scope it
reaches it also looks into the first child and that child's first child: where
top-level code is wrapped in one or two synthetic scopes, its names still resolve.
-/

set_option autoImplicit false

namespace TagScope

/-- The kind of scope at which the upward search ends. Within a module the ambient
names are out of reach unless they are allowed. -/
def searchBound (sourceType : SourceType) (allowGlobals : Bool) : ScopeKind :=
  if !allowGlobals && sourceType = .module then .module else .global

namespace ScopeGraph

/-- The first child of a scope and the first child of that. -/
def peeked (g : ScopeGraph) (id : Nat) : List Nat :=
  match (g.children id).head? with
  | some child => child :: (g.children child).head?.toList
  | none => []

def stopsAt (g : ScopeGraph) (bound : ScopeKind) (id : Nat) : Bool :=
  (g.kind? id).any fun kind ↦ kind = bound || kind = .global

/-- A list up to and including its first element with a property. -/
def upToFirst (stop : Nat → Bool) : List Nat → List Nat
  | [] => []
  | id :: rest => if stop id then [id] else id :: upToFirst stop rest

/-- The scopes on the way up from a scope to the bound. -/
def climb (g : ScopeGraph) (id : Nat) (bound : ScopeKind) : List Nat :=
  upToFirst (g.stopsAt bound) (g.lineage id)

/-- The scopes whose names are visible from a scope, nearest first. -/
def visibleScopes (g : ScopeGraph) (id : Nat) (bound : ScopeKind) : List Nat :=
  g.climb id bound ++ (g.climb id bound).getLast?.elim [] g.peeked

def visible (g : ScopeGraph) (id : Nat) (bound : ScopeKind) : List Binding :=
  (g.visibleScopes id bound).flatMap g.bindings

/-- Whether a name is bound in sight of a scope; `this` always is. -/
def resolves (g : ScopeGraph) (name : String) (id : Nat) (bound : ScopeKind) : Bool :=
  name = "this" || (g.visible id bound).any fun binding ↦ binding.name = name

end ScopeGraph

end TagScope
