import QuoteLang.Proofs.Printing

set_option relaxedAutoImplicit false
set_option autoImplicit false

/-!
# Printed programs are read back

The printed form of a program is a text of that program, so reading it gives the program again. This
holds of programs whose printed form shows everything they are made of. It does not show where
statements end, quotes of strings, and the braces of blocks.

## Main definitions

* `Expr.Plain` — the expressions without strings, choices, functions and macros.
* `Program.Plain` — programs of such expressions, with no expression as a statement but the last.

## Main results

* `Program.parse_render` — such a program is read back from its printed form.
-/

namespace QuoteLang

/-! ## Plain programs -/

/-- An expression is **plain** if it is built from names, integers that are not negative, truth
values, operators, calls, indices, arrays and hashes. -/
inductive Expr.Plain : Expr → Prop
  /-- A name. -/
  | ident {name : String} (h : IsName name) : Plain (.ident name)
  /-- An integer that is not negative. -/
  | int {n : Int64} (h : 0 ≤ n.toInt) : Plain (.int n)
  /-- A truth value. -/
  | bool (b : Bool) : Plain (.bool b)
  /-- An operator before its operand. -/
  | unary {op : UnaryOp} {e : Expr} (h : Plain e) : Plain (.unary op e)
  /-- An operator between its operands. -/
  | binary {op : BinaryOp} {l r : Expr} (hl : Plain l) (hr : Plain r) : Plain (.binary op l r)
  /-- A call. -/
  | call {f : Expr} {args : List Expr} (hf : Plain f) (hargs : ∀ e ∈ args, Plain e) :
      Plain (.call f args)
  /-- An element of an array or a hash. -/
  | index {b i : Expr} (hb : Plain b) (hi : Plain i) : Plain (.index b i)
  /-- An array literal. -/
  | array {items : List Expr} (h : ∀ e ∈ items, Plain e) : Plain (.array items)
  /-- A hash literal. -/
  | hash {pairs : List (Expr × Expr)} (hkeys : ∀ p ∈ pairs, Plain p.1)
      (hvalues : ∀ p ∈ pairs, Plain p.2) : Plain (.hash pairs)

/-- A program is **plain** if it consists of bindings and `return`s, with at most one expression as
a statement, which comes last, and all its expressions are plain. -/
inductive Program.Plain : Program → Prop
  /-- No statements. -/
  | nil : Plain []
  /-- An expression as the last statement. -/
  | expr {e : Expr} (h : e.Plain) : Plain [.expr e]
  /-- A binding. -/
  | letBind {name : String} {e : Expr} {rest : Program} (hname : IsName name) (h : e.Plain)
      (hrest : Plain rest) : Plain (.letBind name e :: rest)
  /-- A `return` with a value. -/
  | ret {e : Expr} {rest : Program} (h : e.Plain) (hrest : Plain rest) :
      Plain (.ret (some e) :: rest)
  /-- A `return` without a value. -/
  | retNone {rest : Program} (hrest : Plain rest) : Plain (.ret none :: rest)

/-! ## Expressions -/

/-- The texts of expressions print them if the text of each of them does. -/
lemma forall₂_renderExprs {es : List Expr} (h : ∀ e ∈ es, e.PrintedAs .free e.render) :
    List.Forall₂ (Expr.PrintedAs .free) es (renderExprs es) := by
  rw [renderExprs_eq_map, List.forall₂_map_right_iff, List.forall₂_same]
  exact h

/-- The texts of entries print them if the texts of the keys and the values do. -/
lemma forall₂_renderEntries {pairs : List (Expr × Expr)}
    (hkeys : ∀ p ∈ pairs, p.1.PrintedAs .free p.1.render)
    (hvalues : ∀ p ∈ pairs, p.2.PrintedAs .free p.2.render) :
    List.Forall₂ EntryPrintedAs pairs (renderEntries pairs) := by
  rw [renderEntries_eq_map, List.forall₂_map_right_iff, List.forall₂_same]
  exact fun p hp => .colon (hkeys p hp) (hvalues p hp)

/-- No plain expression is printed with `=` as its first character. -/
lemma Expr.Plain.head_render_ne {e : Expr} (h : e.Plain) :
    ∀ c ∈ e.render.toList.head?, c ≠ '=' := by
  induction h with
  | ident h =>
    rw [render]
    exact head_ne_of_forall h.2.1 (by decide)
  | int h =>
    rw [render]
    exact head_ne_of_forall (isDigits_renderInt h).2 (by decide)
  | bool b =>
    intro c hc
    rw [render] at hc
    cases b <;> cases hc <;> decide
  | @call f args hf hargs ihf ihargs =>
    intro c hc
    rw [render, String.append_assoc, String.append_assoc, String.toList_append] at hc
    -- Without a callee the text would begin with the parenthesis of the arguments.
    cases hcallee : f.render.toList with
    | nil =>
      rw [hcallee, String.toList_append] at hc
      cases hc
      decide
    | cons d ds =>
      rw [hcallee] at hc ihf
      exact ihf c hc
  | unary | binary | index | array | hash =>
    intro c hc
    simp only [render, String.append_assoc, String.toList_append] at hc
    cases hc
    decide

/-- **A plain expression is printed in every place as it is.** The printed form has parentheses
around every operator and every index, and nothing else needs them. -/
theorem Expr.Plain.printedAs {e : Expr} (h : e.Plain) (p : Place) : e.PrintedAs p e.render := by
  induction h generalizing p with
  | ident h =>
    rw [render]
    exact .ident h
  | int h =>
    rw [render]
    exact .int h
  | bool b =>
    rw [render]
    exact .bool b
  | @unary op e h ih =>
    have hprinted : PrintedAs p (.unary op e) ("(" ++ (op.symbol ++ e.render) ++ ")") :=
      (PrintedAs.unary (ih _) h.head_render_ne).paren
    simpa only [render, String.append_assoc] using hprinted
  | @binary op l r hl hr ihl ihr =>
    have hprinted : PrintedAs p (.binary op l r)
        ("(" ++ (l.render ++ " " ++ op.symbol ++ " " ++ r.render) ++ ")") :=
      (PrintedAs.binary (ihl _) (ihr _)).paren
    simpa only [render, String.append_assoc] using hprinted
  | call hf hargs ihf ihargs =>
    rw [render]
    exact .call (ihf _) (forall₂_renderExprs fun e he => ihargs e he _)
  | index hb hi ihb ihi =>
    have hprinted := ((ihb _).index (p := .free) (ihi _)).paren (p := p)
    have hclose : "])" = "]" ++ ")" := rfl
    simpa only [render, hclose, String.append_assoc] using hprinted
  | array h ih =>
    rw [render]
    exact .array (forall₂_renderExprs fun e he => ih e he _)
  | hash hkeys hvalues ihkeys ihvalues =>
    rw [render]
    exact .hash (forall₂_renderEntries (fun e he => ihkeys e he _) fun e he => ihvalues e he _)

/-! ## Programs -/

/-- A statement that is printed with its semicolon, in front of a text of the statements after
it. -/
lemma Program.isText_cons {stmt : Stmt} {rest : Program} {ts : List Lexeme} {cs : List Char}
    (hts : Spells true (.stmt stmt) ts) (hprints : Prints ts cs)
    (hrender : stmt.render.toList = cs ++ [';']) (hrest : rest.IsText (Program.render rest)) :
    Program.IsText (stmt :: rest) (Program.render (stmt :: rest)) := by
  obtain ⟨us, hus, hlayout⟩ := hrest
  refine ⟨_, .stmtsCons (.inr rfl) (by simp) hts hus, ?_⟩
  have hsep : Layout (TokenKind.semicolon.lexeme :: us) (';' :: (Program.render rest).toList) :=
    hlayout.lexeme_append fun _ _ => rfl
  have htext : (Program.render (stmt :: rest)).toList =
      cs ++ ';' :: (Program.render rest).toList := by
    rw [render, renderStmts, String.toList_append, hrender, List.append_assoc]
    rfl
  rw [htext, List.append_assoc]
  exact hprints _ _ hsep (.cons (by decide) _)

/-- The printed form of a plain program is a text of the program. -/
lemma Program.Plain.isText {program : Program} (h : program.Plain) :
    program.IsText (Program.render program) := by
  induction h with
  | nil => exact ⟨[], .stmtsNil, .nil (List.forall_mem_nil _)⟩
  | @expr e h =>
    have htext : Program.render [.expr e] = e.render := by simp [render, renderStmts, Stmt.render]
    rw [htext]
    exact (h.printedAs .free).isText
  | @letBind name e rest hname h hrest ih =>
    obtain ⟨ts, hts, hprints⟩ := h.printedAs .free
    have hstmt := ((hprints.cons_blank TokenKind.assign.lexeme).cons_blank
      (nameLexeme name)).cons_blank TokenKind.kwLet.lexeme
    refine isText_cons (.letBind hname hts) hstmt ?_ ih
    simp [Stmt.render, String.toList_append, Lexeme.chars, nameLexeme, TokenKind.lexeme,
      TokenKind.text]
  | @ret e rest h hrest ih =>
    obtain ⟨ts, hts, hprints⟩ := h.printedAs .free
    refine isText_cons (.ret hts) (hprints.cons_blank TokenKind.kwReturn.lexeme) ?_ ih
    simp [Stmt.render, String.toList_append, Lexeme.chars, TokenKind.lexeme, TokenKind.text]
  | @retNone rest hrest ih => exact isText_cons .retNone (.lexeme TokenKind.kwReturn.lexeme) rfl ih

/-- **A plain program is read back from its printed form**, and prints the same once more. -/
theorem Program.parse_render {program : Program} (h : program.Plain) :
    parse (Program.render program) = .ok program ∧
      (parse (Program.render program)).map Program.render = .ok (Program.render program) := by
  have hparse := h.isText.parse_eq
  rw [hparse]
  exact ⟨rfl, rfl⟩

/-- Operators, calls and indices inside one another, and a hash at the beginning of the last
statement. -/
def nestedOperands : Program :=
  [.letBind "x" (.unary .neg (.call (.binary .add (.ident "f") (.int 0)) [.bool true, .array []])),
    .ret none,
    .expr (.index (.hash [(.int 1, .unary .not (.ident "x"))]) (.int 1))]

/-- The program is read back from `let x = (-(f + 0)(true, []));return;({1:(!x)}[1])`. -/
theorem Program.parse_render_nested :
    nestedOperands.Plain ∧
      parse "let x = (-(f + 0)(true, []));return;(\x7b1:(!x)\x7d[1])" = .ok nestedOperands := by
  have hf : IsName "f" := ⟨by decide, List.all_eq_true.mp (by decide), by decide⟩
  have hx : IsName "x" := ⟨by decide, List.all_eq_true.mp (by decide), by decide⟩
  have hargs : ∀ e ∈ [Expr.bool true, .array []], e.Plain := by
    simpa using ⟨Expr.Plain.bool true, .array (by simp)⟩
  have hvalue : Expr.Plain (.unary .neg (.call (.binary .add (.ident "f") (.int 0))
      [.bool true, .array []])) :=
    .unary (.call (.binary (.ident hf) (.int (by decide))) hargs)
  have hhash : Expr.Plain (.hash [(.int 1, .unary .not (.ident "x"))]) :=
    .hash (by simpa using .int (by decide)) (by simpa using .unary (.ident hx))
  have hplain : nestedOperands.Plain :=
    .letBind hx hvalue (.retNone (.expr (.index hhash (.int (by decide)))))
  refine ⟨hplain, ?_⟩
  have hrender : Program.render nestedOperands =
      "let x = (-(f + 0)(true, []));return;(\x7b1:(!x)\x7d[1])" := by decide +kernel
  rw [← hrender]
  exact (Program.parse_render hplain).1

end QuoteLang
