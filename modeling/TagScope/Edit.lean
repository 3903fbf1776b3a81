import TagScope.Stable
import TagScope.Text.Slice

/-!
Edits of a text, in character offsets. A family of edits is applied from the end
of the text backwards, so that the offsets of those still to come stay valid; an
edit that overlaps one already applied is left out.
-/

set_option autoImplicit false

namespace TagScope

/-- Replaces the characters from `start` to `stop`; an insertion has both equal. -/
structure Edit where
  start : Int
  stop : Int
  text : String
deriving DecidableEq, Repr

namespace Edit

def insertion (offset : Nat) (text : String) : Edit :=
  ⟨offset, offset, text⟩

/-- The order of application: later ranges come first. -/
def appliesBefore (a b : Edit) : Bool :=
  decide (b.start < a.start) || (decide (a.start = b.start) && decide (b.stop ≤ a.stop))

def apply (e : Edit) (text : List Char) : List Char :=
  Slice.splice text e.start e.stop e.text.toList

/-- Applies a sorted family. `reached` is the start of the last edit applied. -/
def applySorted (text : List Char) (reached : Option Int) : List Edit → List Char
  | [] => text
  | e :: rest =>
    if reached.any fun start ↦ decide (start < e.stop) then applySorted text reached rest
    else applySorted (e.apply text) (some e.start) rest

def applyAll (source : String) (edits : List Edit) : String :=
  String.ofList (applySorted source.toList none (Stable.sort appliesBefore edits))

end Edit

end TagScope
