/-!
White space: the characters that separate words in any script, together with the
ASCII separators U+001C to U+001F.
-/

set_option autoImplicit false

namespace TagScope.Blank

def ranges : List (Nat × Nat) :=
  [(0x09, 0x0D), (0x1C, 0x20), (0x85, 0x85), (0xA0, 0xA0), (0x1680, 0x1680), (0x2000, 0x200A),
    (0x2028, 0x2029), (0x202F, 0x202F), (0x205F, 0x205F), (0x3000, 0x3000)]

def isBlank (c : Char) : Bool :=
  ranges.any fun range ↦ decide (range.1 ≤ c.toNat) && decide (c.toNat ≤ range.2)

def trimRight (text : List Char) : List Char :=
  (text.reverse.dropWhile isBlank).reverse

end TagScope.Blank
