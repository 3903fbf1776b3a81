/-!
Stable sorting by insertion: elements that the order does not tell apart keep
their order.
-/

set_option autoImplicit false

namespace TagScope.Stable

variable {α : Type}

/-- Inserts before the first element that may follow. -/
def insert (le : α → α → Bool) (a : α) : List α → List α
  | [] => [a]
  | b :: rest => if le a b then a :: b :: rest else b :: insert le a rest

def sort (le : α → α → Bool) : List α → List α
  | [] => []
  | a :: rest => insert le a (sort le rest)

/-- The lexicographic order of lists, in which a list follows its beginnings. -/
def lexLe (le : α → α → Bool) : List α → List α → Bool
  | [], _ => true
  | _ :: _, [] => false
  | a :: as, b :: bs => if le a b then (if le b a then lexLe le as bs else true) else false

/-- Texts in the order of their code points. -/
def textLe (a b : String) : Bool :=
  lexLe (fun c d ↦ decide (c.toNat ≤ d.toNat)) a.toList b.toList

end TagScope.Stable
