import QuoteLang.Level
import QuoteLang.Grammar.Rule

set_option relaxedAutoImplicit false
set_option autoImplicit false

/-!
# The grammar

Reading programs from lexemes. Reading stops at the first lexeme that fits no rule.

The rules for expressions contain one another, so each has a budget, of which every step of the
recursion takes one unit.

## Main definitions

* `intBound`, `intLiteral?` — the integer that a run of digits stands for.
* `Grammar.statementWith` — a statement, given the rule for expressions.
* `Grammar.expression`, `Grammar.operand`, `Grammar.continuation`, `Grammar.items`,
  `Grammar.entries`, `Grammar.statements` — the rules for expressions and their parts.
-/

namespace QuoteLang

/-- The number of integers that are not negative, `2 ^ 63`. -/
def intBound : Nat := 9223372036854775808

/-- The integer that a run of decimal digits stands for, if it is below the bound. -/
def intLiteral? (digits : String) : Option Int64 :=
  let value := Nat.ofDigitChars 10 digits.toList 0
  if value < intBound then some (Int64.ofNat value) else none

namespace Grammar

open Rule

/-! ## The rules -/

/-- An integer literal. -/
def integer : Rule Expr := do
  let t ← peek
  match intLiteral? t.literal with
  | some n => do
    let _ ← expect .int
    return .int n
  | none => failHere fun _ => .invalidInteger

/-- Names separated by commas, up to and including the closing parenthesis. There is at least one
name. -/
def names : Nat → Rule (List String)
  | 0 => outOfBudget
  | n + 1 => do
    let name ← expect .ident
    let t ← peek
    if t.kind = .comma then do
      let _ ← expect .comma
      let rest ← names n
      return name :: rest
    else do
      let _ ← expect .rparen
      return [name]

/-- A list of parameters in parentheses, which may be empty. -/
def params (n : Nat) : Rule (List String) := do
  let _ ← expect .lparen
  let t ← peek
  if t.kind = .rparen then do
    let _ ← expect .rparen
    return []
  else names n

/-- A statement, given the rule for expressions. The semicolon at its end is optional. A `return`
has no value if a semicolon, a closing brace or the end of the text follows. -/
def statementWith (expression : Rule Expr) : Rule Stmt := do
  let t ← peek
  match t.kind with
  | .kwLet => do
    let _ ← expect .kwLet
    let name ← expect .ident
    let _ ← expect .assign
    let value ← expression
    skipOptional .semicolon
    return .letBind name value
  | .kwReturn => do
    let _ ← expect .kwReturn
    let next ← peek
    if next.kind = .semicolon ∨ next.kind = .eof ∨ next.kind = .rbrace then do
      skipOptional .semicolon
      return .ret none
    else do
      let value ← expression
      skipOptional .semicolon
      return .ret (some value)
  | _ => do
    let value ← expression
    skipOptional .semicolon
    return .expr value

mutual

/-- An expression all of whose outer operators bind more tightly than a level. -/
def expression : Nat → Level → Rule Expr
  | 0, _ => outOfBudget
  | n + 1, level => do
    let left ← operand n
    continuation n level left

/-- The operators, calls and indexings that follow an operand, as far as they bind more tightly
than a level. -/
def continuation : Nat → Level → Expr → Rule Expr
  | 0, _, _ => outOfBudget
  | n + 1, level, left => do
    let t ← peek
    if level.rank < (Level.ofKind t.kind).rank then
      match t.kind with
      | .lparen => do
        let _ ← expect .lparen
        let args ← list n .rparen
        continuation n level (.call left args)
      | .lbracket => do
        let _ ← expect .lbracket
        let position ← expression n .lowest
        let _ ← expect .rbracket
        continuation n level (.index left position)
      | kind =>
        match BinaryOp.ofKind? kind with
        | some op => do
          let _ ← expect kind
          let right ← expression n (Level.ofKind kind)
          continuation n level (.binary op left right)
        | none => return left
    else return left

/-- An expression up to the first operator that follows it: a literal, a name, an operator with its
operand, an expression in parentheses, a choice, a function, an array or a hash. -/
def operand : Nat → Rule Expr
  | 0 => outOfBudget
  | n + 1 => do
    let t ← peek
    match t.kind with
    | .ident => do
      let name ← expect .ident
      return .ident name
    | .int => integer
    | .string => do
      let text ← expect .string
      return .str text
    | .kwTrue => do
      let _ ← expect .kwTrue
      return .bool true
    | .kwFalse => do
      let _ ← expect .kwFalse
      return .bool false
    | .bang => do
      let _ ← expect .bang
      let e ← expression n .unary
      return .unary .not e
    | .minus => do
      let _ ← expect .minus
      let e ← expression n .unary
      return .unary .neg e
    | .lparen => do
      let _ ← expect .lparen
      let e ← expression n .lowest
      let _ ← expect .rparen
      return e
    | .kwIf => do
      let _ ← expect .kwIf
      let _ ← expect .lparen
      let test ← expression n .lowest
      let _ ← expect .rparen
      let _ ← expect .lbrace
      let yes ← statements n .rbrace
      let next ← peek
      if next.kind = .kwElse then do
        let _ ← expect .kwElse
        let _ ← expect .lbrace
        let no ← statements n .rbrace
        return .cond test yes (some no)
      else return .cond test yes none
    | .kwFn => do
      let _ ← expect .kwFn
      let names ← params n
      let _ ← expect .lbrace
      let body ← statements n .rbrace
      return .fnLit names body
    | .kwMacro => do
      let _ ← expect .kwMacro
      let names ← params n
      let _ ← expect .lbrace
      let body ← statements n .rbrace
      return .macroLit names body
    | .lbracket => do
      let _ ← expect .lbracket
      let items ← list n .rbracket
      return .array items
    | .lbrace => do
      let _ ← expect .lbrace
      let pairs ← entries n
      return .hash pairs
    | _ => failHere .noExpression

/-- Expressions separated by commas, up to and including a closing token. There may be none. -/
def list : Nat → TokenKind → Rule (List Expr)
  | 0, _ => outOfBudget
  | n + 1, stop => do
    let t ← peek
    if t.kind = stop then do
      let _ ← expect stop
      return []
    else items n stop

/-- Expressions separated by commas, up to and including a closing token. There is at least one. -/
def items : Nat → TokenKind → Rule (List Expr)
  | 0, _ => outOfBudget
  | n + 1, stop => do
    let e ← expression n .lowest
    let t ← peek
    if t.kind = .comma then do
      let _ ← expect .comma
      let rest ← items n stop
      return e :: rest
    else do
      let _ ← expect stop
      return [e]

/-- The entries of a hash literal, up to and including the closing brace. A comma after the last of
them is allowed. -/
def entries : Nat → Rule (List (Expr × Expr))
  | 0 => outOfBudget
  | n + 1 => do
    let t ← peek
    if t.kind = .rbrace then do
      let _ ← expect .rbrace
      return []
    else do
      let key ← expression n .lowest
      let _ ← expect .colon
      let value ← expression n .lowest
      let next ← peek
      if next.kind = .comma ∨ next.kind = .rbrace then do
        skipOptional .comma
        let rest ← entries n
        return (key, value) :: rest
      else failHere (.unexpectedToken [.rbrace, .comma])

/-- Statements up to and including a closing token. The end of the text closes a program, and
nothing else. -/
def statements : Nat → TokenKind → Rule (List Stmt)
  | 0, _ => outOfBudget
  | n + 1, stop => do
    let t ← peek
    if t.kind = stop then do
      skipOptional stop
      return []
    else if t.kind = .eof then
      failHere (.unexpectedToken [stop])
    else do
      let s ← statementWith (expression n .lowest)
      let rest ← statements n stop
      return s :: rest

end

end Grammar

end QuoteLang
