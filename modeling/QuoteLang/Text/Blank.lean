set_option relaxedAutoImplicit false
set_option autoImplicit false

/-!
# White space

The characters with the Unicode property `White_Space`, and cutting them off the ends of a text.

## Main definitions

* `isWhite` — the property, for one character.
* `trimWhite` — a text without the white space at its ends.
-/

namespace QuoteLang.Text

/-- The code points with the Unicode property `White_Space`, as ranges with both ends included. -/
def whiteRanges : List (Nat × Nat) :=
  [(0x9, 0xD), (0x20, 0x20), (0x85, 0x85), (0xA0, 0xA0), (0x1680, 0x1680), (0x2000, 0x200A),
    (0x2028, 0x2029), (0x202F, 0x202F), (0x205F, 0x205F), (0x3000, 0x3000)]

/-- Whether a character has the Unicode property `White_Space`. -/
def isWhite (c : Char) : Bool :=
  whiteRanges.any fun (low, high) => low ≤ c.toNat && c.toNat ≤ high

/-- A text without the white space at its start. -/
def trimStart (cs : List Char) : List Char :=
  cs.dropWhile isWhite

/-- A text without the white space at its ends. -/
def trimWhite (cs : List Char) : List Char :=
  (trimStart (trimStart cs).reverse).reverse

end QuoteLang.Text
