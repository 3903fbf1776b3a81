import TagScope.Text.Letter
import TagScope.Value.Double

/-!
Structured data as exchanged with other programs. A number is whole or a double.
The members of an object keep their order.
-/

set_option autoImplicit false

namespace TagScope

inductive Value where
  | null
  | bool (value : Bool)
  | int (value : Int)
  | double (value : Double)
  | text (value : Text)
  | array (items : List Value)
  | object (members : List (Text × Value))
deriving Repr

namespace Value

def ofNat (n : Nat) : Value := .int n

def ofText (text : String) : Value := .text (.proper text)

def ofTexts (texts : List String) : Value := .array (texts.map ofText)

def ofOption {α : Type} (encode : α → Value) : Option α → Value
  | some a => encode a
  | none => .null

def lookup (key : String) (members : List (Text × Value)) : Option Value :=
  (members.find? fun member ↦ member.1 = .proper key).map Prod.snd

end Value

end TagScope
