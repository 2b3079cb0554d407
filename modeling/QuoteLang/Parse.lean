import QuoteLang.Token.Scan
import QuoteLang.Grammar.Budget

set_option relaxedAutoImplicit false
set_option autoImplicit false

/-!
# Reading programs

A text is cut into tokens, whose lexemes are read as a program. Where that fails, the error is
reported at the offset of the token that the reading stopped at.

## Main definitions

* `Program.ofLexemes` — reads a list of lexemes as a program.
* `offsetOf` — the byte offset at which the last so many tokens of a text start.
* `parse` — reads a text as a program.

## Main results

* `parse_eq_ok_iff` — a text is read as a program exactly if its lexemes are.
-/

namespace QuoteLang

/-- Reads a list of lexemes as a program. The budget of the grammar is always enough. -/
def Program.ofLexemes (ts : List Lexeme) : Except Failure Program :=
  match h : Grammar.statements (Grammar.budget ts) .eof ts with
  | .ok program _ => .ok program
  | .fail failure => .error failure
  | .exhausted => absurd h (Grammar.statements_ne_exhausted ts .eof)

/-- The byte offset at which the last `left` tokens of a text start. If none are left, that is the
end of the text. -/
def offsetOf (source : String) (tokens : List Token) (left : Nat) : Nat :=
  match tokens[tokens.length - left]? with
  | some t => t.offset
  | none => source.utf8ByteSize

/-- The report of a failure to read the tokens of a text. -/
def ParseError.ofFailure (source : String) (tokens : List Token) (f : Failure) : ParseError :=
  .atOffset f.cause (f.cause.message f.lexeme.literal) source
    (offsetOf source tokens f.rest.length) (some f.lexeme.literal)

/-- The lexemes of a text. -/
def lexemes (source : String) : List Lexeme :=
  (scan source).map Token.toLexeme

/-- Reads a text as a program. -/
def parse (source : String) : Except ParseError Program :=
  match Program.ofLexemes (lexemes source) with
  | .ok program => .ok program
  | .error failure => .error (.ofFailure source (scan source) failure)

/-- A text is read as a program exactly if its lexemes are. -/
theorem parse_eq_ok_iff {source : String} {program : Program} :
    parse source = .ok program ↔ Program.ofLexemes (lexemes source) = .ok program := by
  unfold parse
  cases Program.ofLexemes (lexemes source) <;> simp

/-- A text is read as the program that remains when errors are forgotten. -/
theorem parse_eq_ok_of_toOption {source : String} {program : Program}
    (h : (parse source).toOption = some program) : parse source = .ok program := by
  cases hp : parse source with
  | error e =>
    rw [hp] at h
    cases h
  | ok p =>
    rw [hp] at h
    cases h
    rfl

end QuoteLang
