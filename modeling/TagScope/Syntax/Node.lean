import TagScope.Text.Utf8

/-!
Syntax trees and places in them. The vocabulary of node kinds and field names
belongs to a grammar and is open, so both are text. A site is a node together
with the way down to it, which tells apart two equal nodes of one tree and gives
every site its parents.
-/

set_option autoImplicit false

namespace TagScope

/-- What a node says of itself: its kind, whether the grammar names it (keywords
and punctuation are unnamed), its span in bytes, and its field in its parent. -/
structure Label where
  kind : String
  named : Bool
  start : Nat
  stop : Nat
  field : Option String
deriving DecidableEq, Repr

structure Node extends Label where
  children : List Node
deriving Repr

namespace Node

def namedChildren (n : Node) : List Node :=
  n.children.filter fun c ↦ c.named

/-- The first child that has the field. -/
def child? (n : Node) (field : String) : Option Node :=
  n.children.find? fun c ↦ c.field = some field

def isAmong (n : Node) (kinds : List String) : Bool :=
  kinds.contains n.kind

/-- A property of all nodes follows from its inheritance by parents. -/
theorem induction {P : Node → Prop} (step : ∀ n : Node, (∀ c ∈ n.children, P c) → P n)
    (n : Node) : P n := by
  refine Node.rec (motive_1 := P) (motive_2 := fun cs ↦ ∀ c ∈ cs, P c) ?_ ?_ ?_ n
  · intro label cs ih
    exact step _ ih
  · simp
  · intro c cs hc hcs
    simpa using ⟨hc, hcs⟩

end Node

/-- The way from a node up to the root: at each step the node's index among its
siblings, and its parent. -/
abbrev Ascent := List (Nat × Node)

/-- The indexes of an ascent. They identify a site within its tree. -/
abbrev Address := List Nat

structure Site where
  node : Node
  above : Ascent
deriving Repr

namespace Site

def root (n : Node) : Site := ⟨n, []⟩

def address (s : Site) : Address :=
  s.above.map Prod.fst

def parent? (s : Site) : Option Node :=
  s.above.head?.map Prod.snd

def grandparent? (s : Site) : Option Node :=
  s.above.tail.head?.map Prod.snd

def children (s : Site) : List Site :=
  s.node.children.zipIdx.map fun (child, index) ↦ ⟨child, (index, s.node) :: s.above⟩

def namedChildren (s : Site) : List Site :=
  s.children.filter fun c ↦ c.node.named

def child? (s : Site) (field : String) : Option Site :=
  s.children.find? fun c ↦ c.node.field = some field

def childOfKind? (s : Site) (kind : String) : Option Site :=
  s.children.find? fun c ↦ c.node.kind = kind

end Site

mutual

/-- The sites of a subtree, parents before children and children in order. -/
def Node.sitesFrom (above : Ascent) : Node → List Site
  | n@⟨_, children⟩ => ⟨n, above⟩ :: Node.sitesOfAll n above 0 children

def Node.sitesOfAll (parent : Node) (above : Ascent) (index : Nat) : List Node → List Site
  | [] => []
  | c :: rest =>
    c.sitesFrom ((index, parent) :: above) ++ Node.sitesOfAll parent above (index + 1) rest

end

def Node.sites (n : Node) : List Site :=
  n.sitesFrom []

def Site.subtree (s : Site) : List Site :=
  s.node.sitesFrom s.above

end TagScope
