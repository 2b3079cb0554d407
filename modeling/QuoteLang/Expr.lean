set_option relaxedAutoImplicit false
set_option autoImplicit false

/-!
# Syntax trees

The trees that programs are read into. Expressions and statements contain one another: the body of
a function literal is a list of statements.

## Main definitions

* `UnaryOp`, `BinaryOp` — the operators, with the `symbol` each is written with.
* `Expr`, `Stmt` — expressions and statements; `Block` and `Program` are lists of statements.
* `Tree` — a part of a program of any kind.
* `Stmt.value?` — the expression that a statement evaluates.
* `Expr.calledName?` — the name that a call by name refers to.
* `Expr.unquoted?` — the argument of `unquote` where a quotation is to be filled in.

## Main results

* `Expr.induction` — induction over expressions and statements together, with a hypothesis for
  every part of a list.
-/

namespace QuoteLang

/-! ## Operators -/

/-- The operators of one operand, which stand before it. -/
inductive UnaryOp
  | not
  | neg
deriving DecidableEq

/-- How an operator of one operand is written. -/
def UnaryOp.symbol : UnaryOp → String
  | not => "!"
  | neg => "-"

/-- The operators of two operands, which stand between them. -/
inductive BinaryOp
  | add
  | sub
  | mul
  | div
  | lt
  | gt
  | eq
  | ne
deriving DecidableEq

/-- How an operator of two operands is written. -/
def BinaryOp.symbol : BinaryOp → String
  | add => "+"
  | sub => "-"
  | mul => "*"
  | div => "/"
  | lt => "<"
  | gt => ">"
  | eq => "=="
  | ne => "!="

/-! ## Expressions and statements -/

mutual

/-- An expression. -/
inductive Expr
  /-- A name. -/
  | ident (name : String)
  /-- An integer literal of 64 bits. -/
  | int (value : Int64)
  /-- A truth value. -/
  | bool (value : Bool)
  /-- A string literal: the text between its quotes. -/
  | str (text : String)
  /-- An operator before its operand. -/
  | unary (op : UnaryOp) (operand : Expr)
  /-- An operator between its operands. -/
  | binary (op : BinaryOp) (left right : Expr)
  /-- A choice between two blocks, the second of which may be missing. -/
  | cond (test : Expr) (yes : List Stmt) (no : Option (List Stmt))
  /-- A function literal. -/
  | fnLit (params : List String) (body : List Stmt)
  /-- A call. -/
  | call (callee : Expr) (args : List Expr)
  /-- An array literal. -/
  | array (items : List Expr)
  /-- A hash literal: keys and values in the order in which they are written. -/
  | hash (entries : List (Expr × Expr))
  /-- An element of an array or a hash. -/
  | index (base position : Expr)
  /-- A macro literal. -/
  | macroLit (params : List String) (body : List Stmt)

/-- A statement. -/
inductive Stmt
  /-- Binds a name to the value of an expression. -/
  | letBind (name : String) (value : Expr)
  /-- Leaves the enclosing function or program, with a value or without one. -/
  | ret (value : Option Expr)
  /-- An expression that stands as a statement. -/
  | expr (value : Expr)

end

/-- The expression that a statement evaluates. A `return` may do without one. -/
def Stmt.value? : Stmt → Option Expr
  | .letBind _ value => some value
  | .ret value => value
  | .expr value => some value

/-- The statements between a pair of braces. -/
abbrev Block := List Stmt

/-- The statements of a whole text. -/
abbrev Program := List Stmt

/-- A part of a program that can be evaluated by itself. -/
inductive Tree
  /-- The statements of a whole text. -/
  | program (p : Program)
  /-- The statements between a pair of braces. -/
  | block (b : Block)
  /-- A single statement. -/
  | stmt (s : Stmt)
  /-- A single expression. -/
  | expr (e : Expr)

/-! ## Induction -/

/-- **Induction over trees**: a property of expressions, together with one of statements, holds of
all of them if every constructor keeps it, where each expression and statement inside a list counts
as a part. -/
theorem Expr.induction {P : Expr → Prop} {Q : Stmt → Prop}
    (ident : ∀ name, P (.ident name)) (int : ∀ n, P (.int n)) (bool : ∀ b, P (.bool b))
    (str : ∀ s, P (.str s)) (unary : ∀ op e, P e → P (.unary op e))
    (binary : ∀ op l r, P l → P r → P (.binary op l r))
    (cond : ∀ c yes no, P c → (∀ s ∈ yes, Q s) → (∀ b ∈ no, ∀ s ∈ b, Q s) → P (.cond c yes no))
    (fnLit : ∀ params body, (∀ s ∈ body, Q s) → P (.fnLit params body))
    (call : ∀ f args, P f → (∀ e ∈ args, P e) → P (.call f args))
    (array : ∀ items, (∀ e ∈ items, P e) → P (.array items))
    (hash : ∀ entries, (∀ e ∈ entries, P e.1 ∧ P e.2) → P (.hash entries))
    (index : ∀ l i, P l → P i → P (.index l i))
    (macroLit : ∀ params body, (∀ s ∈ body, Q s) → P (.macroLit params body))
    (letBind : ∀ name e, P e → Q (.letBind name e))
    (ret : ∀ e, (∀ v ∈ e, P v) → Q (.ret e)) (expr : ∀ e, P e → Q (.expr e)) :
    (∀ e, P e) ∧ ∀ s, Q s := by
  have hcons {α : Type} {R : α → Prop} (head : α) (tail : List α) (hh : R head)
      (ht : ∀ a ∈ tail, R a) : ∀ a ∈ head :: tail, R a := by
    intro a ha
    rcases List.mem_cons.mp ha with rfl | ha
    · exact hh
    · exact ht a ha
  constructor
  · intro e
    exact Expr.rec (motive_1 := P) (motive_2 := Q) (motive_3 := fun l => ∀ s ∈ l, Q s)
      (motive_4 := fun o => ∀ b ∈ o, ∀ s ∈ b, Q s) (motive_5 := fun l => ∀ e ∈ l, P e)
      (motive_6 := fun l => ∀ e ∈ l, P e.1 ∧ P e.2) (motive_7 := fun o => ∀ v ∈ o, P v)
      (motive_8 := fun p => P p.1 ∧ P p.2) ident int bool str unary binary cond fnLit call array
      hash index macroLit letBind ret expr (by simp) hcons (by simp) (by simp) (by simp) hcons
      (by simp) hcons (by simp) (by simp) (fun _ _ h₁ h₂ => ⟨h₁, h₂⟩) e
  · intro s
    exact Stmt.rec (motive_1 := P) (motive_2 := Q) (motive_3 := fun l => ∀ s ∈ l, Q s)
      (motive_4 := fun o => ∀ b ∈ o, ∀ s ∈ b, Q s) (motive_5 := fun l => ∀ e ∈ l, P e)
      (motive_6 := fun l => ∀ e ∈ l, P e.1 ∧ P e.2) (motive_7 := fun o => ∀ v ∈ o, P v)
      (motive_8 := fun p => P p.1 ∧ P p.2) ident int bool str unary binary cond fnLit call array
      hash index macroLit letBind ret expr (by simp) hcons (by simp) (by simp) (by simp) hcons
      (by simp) hcons (by simp) (by simp) (fun _ _ h₁ h₂ => ⟨h₁, h₂⟩) s

/-! ## Calls by name -/

namespace Expr

/-- The name of the callee if the expression is a call of a plain name. -/
def calledName? : Expr → Option String
  | call (ident name) _ => some name
  | _ => none

/-- The argument of a call of `unquote` with exactly one argument. -/
def unquoted? : Expr → Option Expr
  | call (ident name) [arg] => if name = "unquote" then some arg else none
  | _ => none

end Expr

end QuoteLang
