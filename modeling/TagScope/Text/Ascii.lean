/-!
Letter case, for texts that are compared with ASCII words.
-/

set_option autoImplicit false

namespace TagScope.Ascii

/-- A text with its ASCII capitals made small. -/
def lower (text : String) : String :=
  String.ofList (text.toList.map Char.toLower)

def upper (text : String) : String :=
  String.ofList (text.toList.map Char.toUpper)

end TagScope.Ascii
