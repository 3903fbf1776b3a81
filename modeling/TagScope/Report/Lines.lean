/-!
The lines in which a result is printed.
-/

set_option autoImplicit false

namespace TagScope.Report

/-- What a line says of one finding. Columns count from zero and are printed from
one. -/
structure Item where
  line : Int
  column : Int
  message : String
  messageId : String
deriving DecidableEq, Repr

def Item.text (filename : String) (item : Item) : String :=
  filename ++ ":" ++ toString item.line ++ ":" ++ toString (item.column + 1) ++ "  " ++
    item.message ++ "  (" ++ item.messageId ++ ")"

/-- A file that could not be linted has one line, any other one line per finding. -/
def lines (filename : String) (error : Option String) (items : List Item) : List String :=
  if error.any fun text ↦ text != "" then [filename ++ ": error: " ++ error.getD ""]
  else items.map (Item.text filename)

end TagScope.Report
