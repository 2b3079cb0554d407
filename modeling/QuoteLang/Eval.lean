import QuoteLang.Expr.Replace
import QuoteLang.Builtin

set_option relaxedAutoImplicit false
set_option autoImplicit false

/-!
# Evaluation

The value of expressions, statements, blocks and programs in a scope. Operands, arguments and items
are evaluated from left to right. A fault anywhere is a fault of the whole; a `return` makes a value
that ends the blocks around it, up to the end of the call or the program.

The recursion follows the syntax, except where the body of a function is evaluated or the argument
of an `unquote`. There it goes on through a function `deeper`, which `evalBlock` supplies for each
depth in turn.

## Main definitions

* `UnaryOp.apply`, `BinaryOp.apply`, `indexInto` — the operators and indexing, on values.
* `Expr.evalWith`, `Stmt.evalWith`, `evalStmts` — evaluation, given what lies deeper.
* `applyWith`, `quoteWith` — calls and quotations, given what lies deeper.
* `evalBlock` — the value of a block, where calls may be nested up to a depth.
* `Expr.eval`, `Stmt.eval`, `Block.eval`, `Program.eval`, `Tree.eval`, `Expr.quote`, `Value.apply` —
  evaluation up to a depth.

## Main results

* `evalStmts_cons` — a statement that returns ends a block; any other is followed by the rest.
* `evalBlock_succ` — a block takes one unit of the depth.
-/

namespace QuoteLang

/-! ## Operators -/

/-- The value of an operator before its operand. -/
def UnaryOp.apply : UnaryOp → Value → Run Fault Value
  | not, .bool b => return .bool !b
  | not, .null => return .bool true
  | not, _ => return .bool false
  | neg, .int n => return .int (-n)
  | neg, v => Run.raise (.negation v.type)

/-- The value of an operator between integers. Sums, differences, products and quotients are reduced
to 64 bits, and quotients are rounded toward zero. -/
def BinaryOp.applyInt (op : BinaryOp) (l r : Int64) : Run Fault Value :=
  match op with
  | add => return .int (l + r)
  | sub => return .int (l - r)
  | mul => return .int (l * r)
  | div => if r = 0 then Run.raise .divisionByZero else return .int (l / r)
  | lt => return .bool (l < r)
  | gt => return .bool (r < l)
  | eq => return .bool (l == r)
  | ne => return .bool (l != r)

/-- The value of an operator between its operands. Apart from integers, truth values can be compared
and strings can be put together. -/
def BinaryOp.apply (op : BinaryOp) (l r : Value) : Run Fault Value :=
  match op, l, r with
  | op, .int l, .int r => op.applyInt l r
  | eq, .bool l, .bool r => return .bool (l == r)
  | ne, .bool l, .bool r => return .bool (l != r)
  | add, .str l, .str r => return .str (l ++ r)
  | op, l, r =>
    if l.type = r.type then Run.raise (.operator op l.type)
    else Run.raise (.mismatch op l.type r.type)

/-- The item of an array at a place that counts from zero, and `null` outside the array. -/
def itemAt (items : List Value) (place : Int64) : Value :=
  if place < 0 then .null else (items[place.toInt.toNat]?).getD .null

/-- The element of an array or a hash. What is not there is `null`.

In a hash a string is looked up by its whole text, and so it is told apart from every other string.
A table that keeps digests of 64 bits in the place of strings (`tableOf`) finds the same only as
long as no two strings share a digest. Under SipHash-1-3 with a key of zeros, for instance,
`gcbqlbqmnrFhn` and `gkqrEFjACcxmg` share one if the byte 255 is put behind each; such a table finds
the entry of the first under the second, where `null` is found here. -/
def indexInto (base position : Value) : Run Fault Value :=
  match base, position with
  | .array items, .int place => Run.settle (itemAt items place)
  | .hash entries, position =>
    match position.key? with
    | some key => Run.settle ((entries.lookup key).getD .null)
    | none => Run.raise (.unhashable position.type)
  | base, _ => Run.raise (.notIndexable base.type)

/-! ## Names, calls and quotations -/

/-- The value of a name: what it is bound to in the nearest scope, or else the built-in function of
that name. -/
def nameValue (scope : ScopeId) (name : String) : Run Fault Value := do
  match ← Run.get (·.lookup scope name) with
  | some v => Run.settle v
  | none =>
    match Builtin.ofName? name with
    | some b => return .builtin b
    | none => Run.raise (.unbound name)

/-- How evaluation goes on inside the body of a function: the value of a block in a scope. -/
abbrev Deeper := Block → ScopeId → Run Fault Value

/-- The value of the body of a function or macro with its parameters bound in a new scope. A
`return` in the body ends here. -/
def bodyValue (deeper : Deeper) (c : Closure) (args : List Value) : Run Fault Value := do
  let scope ← Run.make (·.enclose c.scope)
  Run.update (·.bindAll scope (c.params.zip args))
  let v ← deeper c.body scope
  Run.settle v.unwrapReturn

/-- The value of a call. -/
def applyWith (deeper : Deeper) (callee : Value) (args : List Value) : Run Fault Value :=
  match callee with
  | .function c =>
    if args.length = c.params.length then bodyValue deeper c args
    else Run.raise (.argumentCount args.length c.params.length)
  | .builtin b => do
    let v ← b.call args
    Run.settle v
  | v => Run.raise (.notCallable v.type)

/-- The piece of syntax that stands for a value. -/
def toSyntax : Value → Run Fault Expr
  | .int n => return .int n
  | .bool b => return .bool b
  | .str s => return .str s
  | .quote e => return e
  | v => Run.raise (.notSyntax v.type)

/-- What stands for an expression in a quotation: the value of its argument if it is a call of
`unquote`, and the expression itself otherwise. -/
def spliceWith (deeper : Deeper) (scope : ScopeId) (e : Expr) : Run Fault Expr :=
  match e.unquoted? with
  | none => return e
  | some arg => do
    let v ← deeper [.expr arg] scope
    toSyntax v

/-- The quotation of an expression, where every call of `unquote` that is handed over is
replaced by the value of its argument. -/
def quoteWith (deeper : Deeper) (scope : ScopeId) (e : Expr) : Run Fault Value := do
  let e ← e.replaceM (spliceWith deeper scope)
  return .quote e

/-- The value of a call of `quote`, which has exactly one argument. -/
def quoteCallWith (deeper : Deeper) (scope : ScopeId) (args : List Expr) : Run Fault Value :=
  match args with
  | [e] => quoteWith deeper scope e
  | args => Run.raise (.argumentCount args.length 1)

/-- Whether an expression is the name `quote`, calls of which are quotations. -/
def Expr.isQuoteName : Expr → Bool
  | .ident name => name == "quote"
  | _ => false

/-! ## Evaluation -/

mutual

/-- The value of an expression. -/
def Expr.evalWith (deeper : Deeper) (scope : ScopeId) : Expr → Run Fault Value
  | .ident name => nameValue scope name
  | .int n => return .int n
  | .bool b => return .bool b
  | .str s => return .str s
  | .unary op e => do
    let v ← e.evalWith deeper scope
    op.apply v
  | .binary op l r => do
    let l ← l.evalWith deeper scope
    let r ← r.evalWith deeper scope
    op.apply l r
  | .cond test yes none => do
    let t ← test.evalWith deeper scope
    if t.truthy then evalStmts deeper scope .null yes else return .null
  | .cond test yes (some no) => do
    let t ← test.evalWith deeper scope
    if t.truthy then evalStmts deeper scope .null yes else evalStmts deeper scope .null no
  | .fnLit params body => do
    let c ← Run.make (·.newClosure params body scope)
    return .function c
  | .macroLit params body => do
    let c ← Run.make (·.newClosure params body scope)
    return .macroFn c
  | .call callee args =>
    if callee.isQuoteName then quoteCallWith deeper scope args
    else do
      let f ← callee.evalWith deeper scope
      let vs ← evalExprs deeper scope args
      applyWith deeper f vs
  | .array items => do
    let vs ← evalExprs deeper scope items
    return .array vs
  | .hash entries => do
    let pairs ← evalEntries deeper scope [] entries
    return .hash pairs
  | .index base position => do
    let b ← base.evalWith deeper scope
    let p ← position.evalWith deeper scope
    indexInto b p

/-- The value of a statement. -/
def Stmt.evalWith (deeper : Deeper) (scope : ScopeId) : Stmt → Run Fault Value
  | .letBind name e => do
    let v ← e.evalWith deeper scope
    Run.update (·.bind scope name v)
    return v
  | .ret none => return .returned .null
  | .ret (some e) => do
    let v ← e.evalWith deeper scope
    return .returned v
  | .expr e => e.evalWith deeper scope

/-- The value of statements that are evaluated one after the other: the value of the last, or of the
first that returns. Where there are none, it is the value before them. -/
def evalStmts (deeper : Deeper) (scope : ScopeId) (before : Value) : List Stmt → Run Fault Value
  | [] => return before
  | s :: rest => do
    let v ← s.evalWith deeper scope
    if v.isReturned then return v else evalStmts deeper scope v rest

/-- The values of expressions, from left to right. -/
def evalExprs (deeper : Deeper) (scope : ScopeId) : List Expr → Run Fault (List Value)
  | [] => return []
  | e :: rest => do
    let v ← e.evalWith deeper scope
    let vs ← evalExprs deeper scope rest
    return v :: vs

/-- The entries of a hash literal, put in from left to right after those that are there. A key is
checked before its value is evaluated.

An entry is put in under its whole key. Two strings are two keys even if they share a digest, in
which case a table of hash keys (`tableOf`) would keep one entry for both. -/
def evalEntries (deeper : Deeper) (scope : ScopeId) (before : List (Key × Value)) :
    List (Expr × Expr) → Run Fault (List (Key × Value))
  | [] => return before
  | (k, e) :: rest => do
    let kv ← k.evalWith deeper scope
    match kv.key? with
    | none => Run.raise (.unhashable kv.type)
    | some key => do
      let v ← e.evalWith deeper scope
      evalEntries deeper scope (Assoc.put key v before) rest

end

/-- A statement that returns ends a block; any other is followed by the rest. -/
theorem evalStmts_cons (deeper : Deeper) (scope : ScopeId) (before : Value) (s : Stmt)
    (rest : List Stmt) :
    evalStmts deeper scope before (s :: rest) = (do
      let v ← s.evalWith deeper scope
      if v.isReturned then return v else evalStmts deeper scope v rest) := by
  rw [evalStmts]

/-! ## Evaluation up to a depth -/

/-- The value of a block in a scope, where calls and `unquote`s may be nested up to a depth. A
`return` is passed on. -/
def evalBlock : Nat → Block → ScopeId → Run Fault Value
  | 0, _, _ => Run.tooDeep
  | depth + 1, block, scope => evalStmts (evalBlock depth) scope .null block

/-- The value of a block in a scope, where the calls in it may be nested up to a depth. A `return`
is passed on. -/
def Block.eval (depth : Nat) (block : Block) (scope : ScopeId) : Run Fault Value :=
  evalStmts (evalBlock depth) scope .null block

/-- A block takes one unit of the depth. -/
theorem evalBlock_succ (depth : Nat) : evalBlock (depth + 1) = Block.eval depth := rfl

/-- The value of an expression in a scope. -/
def Expr.eval (depth : Nat) (e : Expr) (scope : ScopeId) : Run Fault Value :=
  e.evalWith (evalBlock depth) scope

/-- The value of a statement in a scope. -/
def Stmt.eval (depth : Nat) (s : Stmt) (scope : ScopeId) : Run Fault Value :=
  s.evalWith (evalBlock depth) scope

/-- The value of a program in a scope. A `return` ends here. -/
def Program.eval (depth : Nat) (program : Program) (scope : ScopeId) : Run Fault Value := do
  let v ← evalStmts (evalBlock depth) scope .null program
  Run.settle v.unwrapReturn

/-- The value of a part of a program of any kind in a scope. -/
def Tree.eval (depth : Nat) (t : Tree) (scope : ScopeId) : Run Fault Value :=
  match t with
  | program p => p.eval depth scope
  | block b => b.eval depth scope
  | stmt s => s.eval depth scope
  | expr e => e.eval depth scope

/-- The quotation of an expression in a scope. -/
def Expr.quote (depth : Nat) (e : Expr) (scope : ScopeId) : Run Fault Value :=
  quoteWith (evalBlock depth) scope e

/-- The value of a call. -/
def Value.apply (depth : Nat) (callee : Value) (args : List Value) : Run Fault Value :=
  applyWith (evalBlock depth) callee args

end QuoteLang
