import QuoteLang.Expr

set_option relaxedAutoImplicit false
set_option autoImplicit false

/-!
# Printing trees

The printed form of expressions and statements. Every operator application is put in parentheses,
a block is its statements one after the other, and a string is its raw text.

## Main definitions

* `Expr.render`, `Stmt.render`, `Block.render` — the printed forms.
* `Expr.leadingText`, `Stmt.leadingText`, `Program.leadingText` — the text of the token that a
  node is named after.

## Main results

* `renderExprs_eq_map`, `renderEntries_eq_map` — items and entries print one by one.
-/

namespace QuoteLang

/-- A truth value as it is written. -/
def renderBool (b : Bool) : String :=
  if b then "true" else "false"

/-- An integer in decimal digits, after a minus sign if it is negative. -/
def renderInt (n : Int64) : String :=
  toString n.toInt

/-- A list of texts, separated by a comma and a space. -/
def renderList (items : List String) : String :=
  String.intercalate ", " items

/-! ## Printed forms -/

mutual

/-- The printed form of an expression. -/
def Expr.render : Expr → String
  | .ident name => name
  | .int n => renderInt n
  | .bool b => renderBool b
  | .str text => text
  | .unary op e => "(" ++ op.symbol ++ e.render ++ ")"
  | .binary op l r => "(" ++ l.render ++ " " ++ op.symbol ++ " " ++ r.render ++ ")"
  | .cond c yes none => "if" ++ c.render ++ " " ++ renderStmts yes
  | .cond c yes (some no) =>
    "if" ++ c.render ++ " " ++ renderStmts yes ++ "else " ++ renderStmts no
  | .fnLit params body => "fn(" ++ renderList params ++ ") " ++ renderStmts body
  | .call callee args => callee.render ++ "(" ++ renderList (renderExprs args) ++ ")"
  | .array items => "[" ++ renderList (renderExprs items) ++ "]"
  | .hash entries => "\x7b" ++ renderList (renderEntries entries) ++ "\x7d"
  | .index base position => "(" ++ base.render ++ "[" ++ position.render ++ "])"
  | .macroLit params body => "macro(" ++ renderList params ++ ") " ++ renderStmts body

/-- The printed form of a statement. -/
def Stmt.render : Stmt → String
  | .letBind name value => "let " ++ name ++ " = " ++ value.render ++ ";"
  | .ret (some value) => "return " ++ value.render ++ ";"
  | .ret none => "return;"
  | .expr value => value.render

/-- The printed forms of statements, one after the other. -/
def renderStmts : List Stmt → String
  | [] => ""
  | s :: rest => s.render ++ renderStmts rest

/-- The printed forms of the expressions of a list. -/
def renderExprs : List Expr → List String
  | [] => []
  | e :: rest => e.render :: renderExprs rest

/-- The printed forms of the entries of a hash literal: the key, a colon and the value. -/
def renderEntries : List (Expr × Expr) → List String
  | [] => []
  | (key, value) :: rest => (key.render ++ ":" ++ value.render) :: renderEntries rest

end

/-- The printed form of a block: its statements one after the other. -/
def Block.render (block : Block) : String :=
  renderStmts block

/-- The printed form of a program: its statements one after the other. -/
def Program.render (program : Program) : String :=
  renderStmts program

/-- The printed forms of the expressions of a list, one by one. -/
theorem renderExprs_eq_map (es : List Expr) : renderExprs es = es.map Expr.render := by
  induction es with
  | nil => rw [renderExprs, List.map_nil]
  | cons e rest ih => rw [renderExprs, ih, List.map_cons]

/-- The printed forms of the entries of a hash literal, one by one. -/
theorem renderEntries_eq_map (entries : List (Expr × Expr)) :
    renderEntries entries = entries.map fun e => e.1.render ++ ":" ++ e.2.render := by
  induction entries with
  | nil => rw [renderEntries, List.map_nil]
  | cons e rest ih => rw [renderEntries, ih, List.map_cons]

/-! ## Leading tokens -/

/-- The text of the token that an expression is named after: the operator of an operator
application, the bracket of a call or an index, and the first token otherwise. -/
def Expr.leadingText : Expr → String
  | .ident name => name
  | .int n => renderInt n
  | .bool b => renderBool b
  | .str text => text
  | .unary op _ => op.symbol
  | .binary op _ _ => op.symbol
  | .cond _ _ _ => "if"
  | .fnLit _ _ => "fn"
  | .call _ _ => "("
  | .array _ => "["
  | .hash _ => "\x7b"
  | .index _ _ => "["
  | .macroLit _ _ => "macro"

/-- The text of the token that a statement is named after. -/
def Stmt.leadingText : Stmt → String
  | .letBind _ _ => "let"
  | .ret _ => "return"
  | .expr value => value.leadingText

/-- The text of the token that the first statement of a program is named after, and the empty text
for an empty program. -/
def Program.leadingText (program : Program) : String :=
  match program with
  | [] => ""
  | s :: _ => s.leadingText

end QuoteLang
