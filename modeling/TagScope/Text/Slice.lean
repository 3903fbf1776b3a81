/-!
Slices of a list by two signed positions. A negative position counts from the
end, and both are then brought into the list, so every pair of positions names a
slice; it is empty when the second is not beyond the first.
-/

set_option autoImplicit false

namespace TagScope.Slice

variable {α : Type}

def clamp (length : Nat) (position : Int) : Nat :=
  if position < 0 then (position + length).toNat else min position.toNat length

def upTo (xs : List α) (stop : Int) : List α :=
  xs.take (clamp xs.length stop)

def after (xs : List α) (start : Int) : List α :=
  xs.drop (clamp xs.length start)

def between (xs : List α) (start stop : Int) : List α :=
  (xs.take (clamp xs.length stop)).drop (clamp xs.length start)

/-- The text before `start`, then `replacement`, then the text from `stop` on. -/
def splice (xs : List α) (start stop : Int) (replacement : List α) : List α :=
  upTo xs start ++ replacement ++ after xs stop

@[simp] theorem clamp_natCast (length position : Nat) :
    clamp length (position : Int) = min position length := by
  unfold clamp
  split <;> omega

end TagScope.Slice
