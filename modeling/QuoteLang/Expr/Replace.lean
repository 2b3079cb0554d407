import QuoteLang.Expr

set_option relaxedAutoImplicit false
set_option autoImplicit false

/-!
# Replacing parts of trees

One pass over a tree that hands certain expressions to a function and puts its answers in their
place. The function may have effects; it meets the expressions from left to right.

The pass descends through operator applications, indexing, choices, function literals, arrays and
hashes. Every other expression — a name, a literal, a call, a macro literal — is handed over whole,
and the answer is not searched again.

## Main definitions

* `Expr.IsHandedOver` — the expressions that the pass hands over instead of descending.
* `Expr.replaceM`, `Stmt.replaceM`, `Block.replaceM`, `Tree.replaceM` — the pass with effects.

## Main results

* `Expr.replaceM_of_isHandedOver` — such an expression is replaced by the answer of the function.
-/

namespace QuoteLang

variable {m : Type → Type} [Monad m]

/-! ## The pass -/

mutual

/-- Replaces the outermost names, literals, calls and macro literals of an expression. -/
def Expr.replaceM (f : Expr → m Expr) : Expr → m Expr
  | .ident name => f (.ident name)
  | .int n => f (.int n)
  | .bool b => f (.bool b)
  | .str text => f (.str text)
  | .unary op e => do
    let e ← e.replaceM f
    return .unary op e
  | .binary op l r => do
    let l ← l.replaceM f
    let r ← r.replaceM f
    return .binary op l r
  | .cond c yes none => do
    let c ← c.replaceM f
    let yes ← replaceStmtsM f yes
    return .cond c yes none
  | .cond c yes (some no) => do
    let c ← c.replaceM f
    let yes ← replaceStmtsM f yes
    let no ← replaceStmtsM f no
    return .cond c yes (some no)
  | .fnLit params body => do
    let body ← replaceStmtsM f body
    return .fnLit params body
  | .call callee args => f (.call callee args)
  | .array items => do
    let items ← replaceExprsM f items
    return .array items
  | .hash entries => do
    let entries ← replaceEntriesM f entries
    return .hash entries
  | .index base position => do
    let base ← base.replaceM f
    let position ← position.replaceM f
    return .index base position
  | .macroLit params body => f (.macroLit params body)

/-- Replaces parts of the expressions of a statement. -/
def Stmt.replaceM (f : Expr → m Expr) : Stmt → m Stmt
  | .letBind name value => do
    let value ← value.replaceM f
    return .letBind name value
  | .ret none => return .ret none
  | .ret (some value) => do
    let value ← value.replaceM f
    return .ret (some value)
  | .expr value => do
    let value ← value.replaceM f
    return .expr value

/-- Replaces parts of the statements of a list, from left to right. -/
def replaceStmtsM (f : Expr → m Expr) : List Stmt → m (List Stmt)
  | [] => return []
  | s :: rest => do
    let s ← s.replaceM f
    let rest ← replaceStmtsM f rest
    return s :: rest

/-- Replaces parts of the expressions of a list, from left to right. -/
def replaceExprsM (f : Expr → m Expr) : List Expr → m (List Expr)
  | [] => return []
  | e :: rest => do
    let e ← e.replaceM f
    let rest ← replaceExprsM f rest
    return e :: rest

/-- Replaces parts of the entries of a hash literal, from left to right and each key before its
value. -/
def replaceEntriesM (f : Expr → m Expr) : List (Expr × Expr) → m (List (Expr × Expr))
  | [] => return []
  | (key, value) :: rest => do
    let key ← key.replaceM f
    let value ← value.replaceM f
    let rest ← replaceEntriesM f rest
    return (key, value) :: rest

end

/-- Replaces parts of the statements of a block or a program, from left to right. -/
def Block.replaceM (f : Expr → m Expr) (block : Block) : m Block :=
  replaceStmtsM f block

/-- Replaces parts of a part of a program of any kind. -/
def Tree.replaceM (f : Expr → m Expr) : Tree → m Tree
  | .program p => do
    let p ← Block.replaceM f p
    return .program p
  | .block b => do
    let b ← Block.replaceM f b
    return .block b
  | .stmt s => do
    let s ← s.replaceM f
    return .stmt s
  | .expr e => do
    let e ← e.replaceM f
    return .expr e

/-! ## What is handed over -/

/-- The expressions that are handed over whole: names, literals, calls and macro literals. -/
def Expr.IsHandedOver : Expr → Prop
  | .ident _ | .int _ | .bool _ | .str _ | .call _ _ | .macroLit _ _ => True
  | _ => False

/-- An expression that is handed over whole is replaced by the answer of the function. -/
theorem Expr.replaceM_of_isHandedOver (f : Expr → m Expr) {e : Expr} (h : e.IsHandedOver) :
    e.replaceM f = f e := by
  cases e <;> simp_all [replaceM, IsHandedOver]

end QuoteLang
