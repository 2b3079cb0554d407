import QuoteLang.Token
import QuoteLang.Expr

set_option relaxedAutoImplicit false
set_option autoImplicit false

/-!
# Precedence levels

How tightly the operators, calls and indexing bind.

## Main definitions

* `Level` — the levels, from the loosest to the tightest; `Level.rank` orders them.
* `Level.ofKind` — how tightly a token binds that stands after an operand.
* `BinaryOp.level`, `BinaryOp.ofKind?` — the level of an operator, and the operator a token stands
  for.

## Main results

* `BinaryOp.ofKind_level` — the token of an operator binds at the level of the operator.
-/

namespace QuoteLang

/-- The precedence levels, from the loosest to the tightest. -/
inductive Level
  | lowest
  | equals
  | lessGreater
  | sum
  | product
  | unary
  | call
  | index
deriving DecidableEq

namespace Level

/-- The number of levels below a level. -/
def rank : Level → Nat
  | lowest => 0
  | equals => 1
  | lessGreater => 2
  | sum => 3
  | product => 4
  | unary => 5
  | call => 6
  | index => 7

/-- How tightly a token binds that stands after an operand. A token that continues no expression is
at the lowest level. -/
def ofKind : TokenKind → Level
  | .eq | .notEq => equals
  | .lt | .gt => lessGreater
  | .plus | .minus => sum
  | .asterisk | .slash => product
  | .lparen => call
  | .lbracket => index
  | _ => lowest

end Level

namespace BinaryOp

/-- The level of an operator. -/
def level : BinaryOp → Level
  | eq | ne => .equals
  | lt | gt => .lessGreater
  | add | sub => .sum
  | mul | div => .product

/-- The kind of the token that an operator is written with. -/
def kind : BinaryOp → TokenKind
  | add => .plus
  | sub => .minus
  | mul => .asterisk
  | div => .slash
  | lt => .lt
  | gt => .gt
  | eq => .eq
  | ne => .notEq

/-- The operator that a token between two operands stands for. -/
def ofKind? : TokenKind → Option BinaryOp
  | .plus => some add
  | .minus => some sub
  | .asterisk => some mul
  | .slash => some div
  | .lt => some lt
  | .gt => some gt
  | .eq => some eq
  | .notEq => some ne
  | _ => none

/-- The token of an operator binds at the level of the operator. -/
theorem ofKind_level (op : BinaryOp) : Level.ofKind op.kind = op.level := by
  cases op <;> rfl

end BinaryOp

end QuoteLang
