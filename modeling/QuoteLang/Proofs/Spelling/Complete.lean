import QuoteLang.Proofs.Spelling.Sound

set_option relaxedAutoImplicit false
set_option autoImplicit false

/-!
# Every spelling is read

The grammar reads every strict spelling of a program as that program. So a text has at most one
program that it spells strictly, whatever parentheses and blanks it contains.

An expression is read by reading its leftmost operand and going on with what follows. So what is
proved about a spelling is that the grammar, after it, goes on with the expression it spells.

## Main definitions

* `Grammar.Reads` — a rule reads a value as soon as its budget is large enough.
* `Grammar.Fits` — an expression in a place is not torn apart by its level or by what follows it.
* `Grammar.Complete` — the rules read a spelling of a phrase as that phrase.

## Main results

* `Grammar.complete` — the rules read every strict spelling as what it spells.
* `parse_complete` — every text of a program is read as that program.
-/

namespace QuoteLang

namespace Grammar

open Rule

/-! ## Rules that read a value -/

/-- A rule reads a value and leaves the rest as soon as it has four units of its budget for each
lexeme and `k` more. -/
def Reads {α : Type} (k : Nat) (rule : Nat → Rule α) (ts : List Lexeme) (a : α)
    (rest : List Lexeme) : Prop :=
  ∀ n, 4 * ts.length + k ≤ n → rule n ts = .ok a rest

/-- A rule with units for a lexeme or more has a unit to take. -/
lemma Reads.of_succ {α : Type} {k : Nat} {rule : Nat → Rule α} {ts rest : List Lexeme} {a : α}
    (h : ∀ n, 4 * ts.length + k ≤ n → rule (n + 1) ts = .ok a rest) :
    Reads (k + 1) rule ts a rest := by
  intro n hn
  obtain ⟨m, rfl⟩ : ∃ m, n = m + 1 := ⟨n - 1, by omega⟩
  exact h m (by omega)

/-- The lexeme of a kind that leaves no choice is read. -/
lemma expect_lexeme (kind : TokenKind) (ts : List Lexeme) :
    expect kind (kind.lexeme :: ts) = .ok kind.text ts :=
  expect_eq_ok.mpr rfl

/-- The kind of the next lexeme, where it is the one of a kind. -/
lemma next_lexeme (kind : TokenKind) (ts : List Lexeme) :
    ((kind.lexeme :: ts).headD .eof).kind = kind := rfl

/-- The lexeme of a name is read. -/
lemma expect_nameLexeme (name : String) (ts : List Lexeme) :
    expect .ident (nameLexeme name :: ts) = .ok name ts :=
  expect_eq_ok.mpr rfl

/-- The integer with the value of a run of digits is the one the digits stand for. -/
lemma intLiteral?_of_value {digits : String} {n : Int64}
    (h : n.toInt = Nat.ofDigitChars 10 digits.toList 0) : intLiteral? digits = some n := by
  have hlt : n.toInt < 2 ^ 63 := n.toInt_lt
  have hbound : Nat.ofDigitChars 10 digits.toList 0 < intBound := by
    rw [intBound]
    omega
  rw [intLiteral?, if_pos hbound]
  refine congrArg some (Int64.toInt_inj.mp ?_)
  rw [Int64.toInt_ofNat_of_lt hbound, h]

/-! ## Names -/

/-- Names are read up to the parenthesis behind them. -/
lemma reads_names {ns : List String} (hne : ns ≠ []) (rest : List Lexeme) :
    Reads 1 names (spellNames ns ++ TokenKind.rparen.lexeme :: rest) ns rest := by
  fun_induction spellNames ns with
  | case1 => exact absurd rfl hne
  | case2 name =>
    refine .of_succ fun n _ => ?_
    rw [List.singleton_append, names, bind_of_ok (expect_nameLexeme _ _), peek_bind, next_lexeme,
      if_neg (by decide), bind_of_ok (expect_lexeme _ _)]
    rfl
  | case3 name ns hns ih =>
    refine .of_succ fun n hn => ?_
    have hread := ih hns n (by simp at hn ⊢; omega)
    rw [List.cons_append, List.cons_append, names, bind_of_ok (expect_nameLexeme _ _), peek_bind,
      next_lexeme, if_pos rfl, bind_of_ok (expect_lexeme _ _), bind_of_ok hread]
    rfl

/-- Parameters are read with the parentheses around them. -/
lemma reads_params (ns : List String) (rest : List Lexeme) :
    Reads 1 params (inParens (spellNames ns) ++ rest) ns rest := by
  intro n hn
  cases ns with
  | nil =>
    change params n (TokenKind.lparen.lexeme :: TokenKind.rparen.lexeme :: rest) = _
    rw [params, bind_of_ok (expect_lexeme _ _), peek_bind, next_lexeme, if_pos rfl,
      bind_of_ok (expect_lexeme _ _)]
    rfl
  | cons name ns =>
    have hread := reads_names (List.cons_ne_nil name ns) rest n (by simp [inParens] at hn ⊢; omega)
    have hnext : ((spellNames (name :: ns) ++ TokenKind.rparen.lexeme :: rest).headD .eof).kind =
        .ident := by
      cases ns <;> rfl
    rw [inParens, List.append_assoc, List.cons_append, List.singleton_append, params,
      bind_of_ok (expect_lexeme _ _), peek_bind, hnext, if_neg (by decide), hread]

/-! ## Operands -/

section

variable {ts rest : List Lexeme}

/-- A name is read as an operand. -/
lemma reads_ident (name : String) (rest : List Lexeme) :
    Reads 1 operand (nameLexeme name :: rest) (.ident name) rest := by
  refine .of_succ fun n _ => ?_
  rw [operand, peek_bind]
  exact bind_of_ok (expect_nameLexeme _ _)

/-- Digits are read as the integer with their value. -/
lemma reads_int {digits : String} {n : Int64}
    (h : n.toInt = Nat.ofDigitChars 10 digits.toList 0) (rest : List Lexeme) :
    Reads 1 operand (⟨.int, digits⟩ :: rest) (.int n) rest := by
  refine .of_succ fun m _ => ?_
  have hint : integer (⟨.int, digits⟩ :: rest) = .ok (.int n) rest := by
    rw [integer, peek_bind, List.headD_cons, intLiteral?_of_value h]
    exact bind_of_ok (expect_eq_ok.mpr rfl)
  rw [operand, peek_bind]
  exact hint

/-- A truth value is read as an operand. -/
lemma reads_bool (b : Bool) (rest : List Lexeme) :
    Reads 1 operand ((if b then TokenKind.kwTrue.lexeme else TokenKind.kwFalse.lexeme) :: rest)
      (.bool b) rest := by
  refine .of_succ fun n _ => ?_
  cases b <;> rw [operand, peek_bind] <;> exact bind_of_ok (expect_lexeme _ _)

/-- A string is read as an operand. -/
lemma reads_str (text : String) (rest : List Lexeme) :
    Reads 1 operand (⟨.string, text⟩ :: rest) (.str text) rest := by
  refine .of_succ fun n _ => ?_
  rw [operand, peek_bind]
  exact bind_of_ok (expect_eq_ok.mpr rfl)

/-- A token that starts an operand is read, and then the part that the operand is made of. -/
lemma reads_headed {α : Type} {kind : TokenKind} {k : Nat} {part : Nat → Rule α} {f : α → Expr}
    {a : α} (hkind : ∀ n, operand (n + 1) (kind.lexeme :: ts) =
      (expect kind >>= fun _ => part n >>= fun a => Pure.pure (f a)) (kind.lexeme :: ts))
    (h : Reads k part ts a rest) (hk : k ≤ 4) :
    Reads 1 operand (kind.lexeme :: ts) (f a) rest := by
  refine .of_succ fun n hn => ?_
  have hread := h n (by simp only [List.length_cons] at hn; omega)
  rw [hkind]
  exact (bind_of_ok (expect_lexeme _ _)).trans (bind_of_ok hread)

/-- A sign is read with the operand behind it. -/
lemma reads_unary {op : UnaryOp} {e : Expr}
    (h : Reads 2 (fun n => expression n .unary) ts e rest) :
    Reads 1 operand (op.kind.lexeme :: ts) (.unary op e) rest := by
  refine reads_headed (fun n => ?_) h (by decide)
  cases op <;> rw [operand, peek_bind] <;> rfl

/-- An expression in parentheses is read as an operand. -/
lemma reads_paren {e : Expr} (h : Reads 2 (fun n => expression n .lowest) ts e
    (TokenKind.rparen.lexeme :: rest)) :
    Reads 1 operand (TokenKind.lparen.lexeme :: ts) e rest := by
  refine .of_succ fun n hn => ?_
  have hread := h n (by simp only [List.length_cons] at hn; omega)
  rw [operand, peek_bind]
  refine (bind_of_ok (expect_lexeme _ _)).trans ?_
  rw [bind_of_ok hread, bind_of_ok (expect_lexeme _ _)]
  rfl

/-- A list in brackets is read as an array. -/
lemma reads_array {items : List Expr} (h : Reads 4 (fun n => list n .rbracket) ts items rest) :
    Reads 1 operand (TokenKind.lbracket.lexeme :: ts) (.array items) rest :=
  reads_headed (fun n => by rw [operand, peek_bind]; rfl) h (by decide)

/-- Entries in braces are read as a hash. -/
lemma reads_hash {pairs : List (Expr × Expr)} (h : Reads 3 entries ts pairs rest) :
    Reads 1 operand (TokenKind.lbrace.lexeme :: ts) (.hash pairs) rest :=
  reads_headed (fun n => by rw [operand, peek_bind]; rfl) h (by decide)

/-- Parameters and a body behind `fn` are read as a function, behind `macro` as a macro. -/
lemma reads_literal (ns : List String) {body : List Stmt}
    (h : Reads 3 (fun n => statements n .rbrace) ts body rest) :
    Reads 1 operand (TokenKind.kwFn.lexeme :: (inParens (spellNames ns) ++
        TokenKind.lbrace.lexeme :: ts)) (.fnLit ns body) rest ∧
      Reads 1 operand (TokenKind.kwMacro.lexeme :: (inParens (spellNames ns) ++
        TokenKind.lbrace.lexeme :: ts)) (.macroLit ns body) rest := by
  constructor
  all_goals
    refine .of_succ fun n hn => ?_
    simp only [List.length_cons, List.length_append] at hn
    have hparams := reads_params ns (TokenKind.lbrace.lexeme :: ts) n
      (by simp only [List.length_cons, List.length_append]; omega)
    have hread := h n (by omega)
    rw [operand, peek_bind]
    refine (bind_of_ok (expect_lexeme _ _)).trans ?_
    rw [bind_of_ok hparams, bind_of_ok (expect_lexeme _ _), bind_of_ok hread]
    rfl

/-- A test and a block behind `if` are read as a choice if no `else` follows. -/
lemma reads_cond {c : Expr} {yes : List Stmt} {us : List Lexeme}
    (hc : Reads 2 (fun n => expression n .lowest) ts c
      (TokenKind.rparen.lexeme :: TokenKind.lbrace.lexeme :: us))
    (hus : us.length ≤ ts.length) (hy : Reads 3 (fun n => statements n .rbrace) us yes rest)
    (hnext : (rest.headD .eof).kind ≠ .kwElse) :
    Reads 1 operand (TokenKind.kwIf.lexeme :: TokenKind.lparen.lexeme :: ts) (.cond c yes none)
      rest := by
  refine .of_succ fun n hn => ?_
  simp only [List.length_cons] at hn
  have htest := hc n (by omega)
  have hyes := hy n (by omega)
  rw [operand, peek_bind]
  refine (bind_of_ok (expect_lexeme _ _)).trans ?_
  rw [bind_of_ok (expect_lexeme _ _), bind_of_ok htest, bind_of_ok (expect_lexeme _ _),
    bind_of_ok (expect_lexeme _ _), bind_of_ok hyes, peek_bind, if_neg hnext]
  rfl

/-- A test and two blocks behind `if` are read as a choice. -/
lemma reads_condElse {c : Expr} {yes no : List Stmt} {us vs : List Lexeme}
    (hc : Reads 2 (fun n => expression n .lowest) ts c
      (TokenKind.rparen.lexeme :: TokenKind.lbrace.lexeme :: us)) (hus : us.length ≤ ts.length)
    (hy : Reads 3 (fun n => statements n .rbrace) us yes
      (TokenKind.kwElse.lexeme :: TokenKind.lbrace.lexeme :: vs)) (hvs : vs.length ≤ ts.length)
    (hn : Reads 3 (fun n => statements n .rbrace) vs no rest) :
    Reads 1 operand (TokenKind.kwIf.lexeme :: TokenKind.lparen.lexeme :: ts)
      (.cond c yes (some no)) rest := by
  refine .of_succ fun n hlen => ?_
  simp only [List.length_cons] at hlen
  have htest := hc n (by omega)
  have hyes := hy n (by omega)
  have hno := hn n (by omega)
  rw [operand, peek_bind]
  refine (bind_of_ok (expect_lexeme _ _)).trans ?_
  rw [bind_of_ok (expect_lexeme _ _), bind_of_ok htest, bind_of_ok (expect_lexeme _ _),
    bind_of_ok (expect_lexeme _ _), bind_of_ok hyes, peek_bind, next_lexeme, if_pos rfl,
    bind_of_ok (expect_lexeme _ _), bind_of_ok (expect_lexeme _ _), bind_of_ok hno]
  rfl

/-! ## What follows an operand -/

/-- An expression is read by its operand and what follows it. -/
lemma reads_expression {level : Level} {us : List Lexeme} {left e : Expr}
    (hleft : Reads 1 operand ts left us) (hus : us.length ≤ ts.length)
    (h : Reads 1 (fun n => continuation n level left) us e rest) :
    Reads 2 (fun n => expression n level) ts e rest := by
  refine .of_succ fun n hn => ?_
  have hoperand := hleft n (by omega)
  have hread := h n (by omega)
  rw [expression, bind_of_ok hoperand]
  exact hread

/-- An expression is left at a token that does not bind more tightly than its level. -/
lemma reads_stop {level : Level} (e : Expr) (h : nextRank rest ≤ level.rank) :
    Reads 1 (fun n => continuation n level e) rest e rest := by
  refine .of_succ fun n _ => ?_
  rw [nextRank] at h
  rw [continuation, peek_bind, if_neg (Nat.not_lt_of_le h)]
  rfl

/-- A list in parentheses makes a call of what has been read. -/
lemma reads_call {level : Level} {us : List Lexeme} {f e : Expr} {args : List Expr}
    (hlevel : level.rank < (Level.ofKind .lparen).rank)
    (hargs : Reads 4 (fun n => list n .rparen) ts args us) (hus : us.length ≤ ts.length)
    (h : Reads 1 (fun n => continuation n level (.call f args)) us e rest) :
    Reads 1 (fun n => continuation n level f) (TokenKind.lparen.lexeme :: ts) e rest := by
  refine .of_succ fun n hn => ?_
  simp only [List.length_cons] at hn
  have hlist := hargs n (by omega)
  have hread := h n (by omega)
  rw [continuation, peek_bind, next_lexeme, if_pos hlevel]
  refine (bind_of_ok (expect_lexeme _ _)).trans ?_
  rw [bind_of_ok hlist]
  exact hread

/-- An expression in brackets is the index of what has been read. -/
lemma reads_index {level : Level} {us : List Lexeme} {b i e : Expr}
    (hlevel : level.rank < (Level.ofKind .lbracket).rank)
    (hi : Reads 2 (fun n => expression n .lowest) ts i (TokenKind.rbracket.lexeme :: us))
    (hus : us.length ≤ ts.length)
    (h : Reads 1 (fun n => continuation n level (.index b i)) us e rest) :
    Reads 1 (fun n => continuation n level b) (TokenKind.lbracket.lexeme :: ts) e rest := by
  refine .of_succ fun n hn => ?_
  simp only [List.length_cons] at hn
  have hposition := hi n (by omega)
  have hread := h n (by omega)
  rw [continuation, peek_bind, next_lexeme, if_pos hlevel]
  refine (bind_of_ok (expect_lexeme _ _)).trans ?_
  rw [bind_of_ok hposition, bind_of_ok (expect_lexeme _ _)]
  exact hread

/-- An operator binds what has been read to its right operand. -/
lemma reads_binary {level : Level} {us : List Lexeme} {op : BinaryOp} {l r e : Expr}
    (hlevel : level.rank < op.level.rank)
    (hr : Reads 2 (fun n => expression n op.level) ts r us) (hus : us.length ≤ ts.length)
    (h : Reads 1 (fun n => continuation n level (.binary op l r)) us e rest) :
    Reads 1 (fun n => continuation n level l) (op.kind.lexeme :: ts) e rest := by
  refine .of_succ fun n hn => ?_
  simp only [List.length_cons] at hn
  have hright := hr n (by omega)
  have hread := h n (by omega)
  rw [← BinaryOp.ofKind_level] at hlevel hright
  rw [continuation, peek_bind, next_lexeme, if_pos hlevel]
  cases op <;>
  · refine (bind_of_ok (expect_lexeme _ _)).trans ?_
    exact (bind_of_ok hright).trans hread

/-! ## Lists, entries and statements -/

/-- An optional lexeme is read if it is there, and if nothing else may be taken for it. -/
lemma skipOptional_sep {kind : TokenKind} {sep : List Lexeme} (hsep : IsOptional kind sep)
    (hnext : sep = [] → (rest.headD .eof).kind ≠ kind) :
    skipOptional kind (sep ++ rest) = .ok () rest := by
  rcases hsep with rfl | rfl
  · exact skipOptional_of_ne (hnext rfl)
  · exact skipOptional_cons kind.lexeme rest

/-- The last member of a list is read with what closes the list. -/
lemma reads_items_last {stop : TokenKind} {e : Expr} (hstop : stop ≠ .comma)
    (h : Reads 2 (fun n => expression n .lowest) ts e (stop.lexeme :: rest)) :
    Reads 3 (fun n => items n stop) ts [e] rest := by
  refine .of_succ fun n hn => ?_
  rw [items, bind_of_ok (h n hn), peek_bind, next_lexeme, if_neg hstop,
    bind_of_ok (expect_lexeme _ _)]
  rfl

/-- A member of a list is read with the comma behind it. -/
lemma reads_items_cons {stop : TokenKind} {e : Expr} {es : List Expr} {us : List Lexeme}
    (h : Reads 2 (fun n => expression n .lowest) ts e (TokenKind.comma.lexeme :: us))
    (hus : us.length < ts.length) (hes : Reads 3 (fun n => items n stop) us es rest) :
    Reads 3 (fun n => items n stop) ts (e :: es) rest := by
  refine .of_succ fun n hn => ?_
  have hothers := hes n (by omega)
  rw [items, bind_of_ok (h n hn), peek_bind, next_lexeme, if_pos rfl,
    bind_of_ok (expect_lexeme _ _), bind_of_ok hothers]
  rfl

/-- An empty list is read as what closes it. -/
lemma reads_list_nil (stop : TokenKind) (rest : List Lexeme) :
    Reads 4 (fun n => list n stop) (stop.lexeme :: rest) [] rest := by
  refine .of_succ fun n _ => ?_
  rw [list, peek_bind, next_lexeme, if_pos rfl, bind_of_ok (expect_lexeme _ _)]
  rfl

/-- A list that is not closed at once is read as its members. -/
lemma reads_list_items {stop : TokenKind} {es : List Expr} (hnext : (ts.headD .eof).kind ≠ stop)
    (h : Reads 3 (fun n => items n stop) ts es rest) :
    Reads 4 (fun n => list n stop) ts es rest := by
  refine .of_succ fun n hn => ?_
  rw [list, peek_bind, if_neg hnext]
  exact h n hn

/-- No entries are read at a closing brace. -/
lemma reads_entries_nil (rest : List Lexeme) :
    Reads 3 entries (TokenKind.rbrace.lexeme :: rest) [] rest := by
  refine .of_succ fun n _ => ?_
  rw [entries, peek_bind, next_lexeme, if_pos rfl, bind_of_ok (expect_lexeme _ _)]
  rfl

/-- An entry is read with the comma behind it, which may be missing before the closing brace. -/
lemma reads_entries_cons {k v : Expr} {pairs : List (Expr × Expr)} {us sep vs : List Lexeme}
    (hnext : (ts.headD .eof).kind ≠ .rbrace)
    (hk : Reads 2 (fun n => expression n .lowest) ts k (TokenKind.colon.lexeme :: us))
    (hus : us.length ≤ ts.length)
    (hv : Reads 2 (fun n => expression n .lowest) us v (sep ++ vs)) (hsep : IsOptional .comma sep)
    (hlast : sep = [] → (vs.headD .eof).kind = .rbrace) (hvs : vs.length < ts.length)
    (h : Reads 3 entries vs pairs rest) : Reads 3 entries ts ((k, v) :: pairs) rest := by
  refine .of_succ fun n hn => ?_
  have hvalue := hv n (by omega)
  have hothers := h n (by omega)
  have hskip : skipOptional .comma (sep ++ vs) = .ok () vs :=
    skipOptional_sep hsep fun h => by rw [hlast h]; decide
  have hstop : ((sep ++ vs).headD .eof).kind = .comma ∨
      ((sep ++ vs).headD .eof).kind = .rbrace := by
    rcases hsep with rfl | rfl
    · exact .inr (hlast rfl)
    · exact .inl rfl
  rw [entries, peek_bind, if_neg hnext, bind_of_ok (hk n hn), bind_of_ok (expect_lexeme _ _),
    bind_of_ok hvalue, peek_bind, if_pos hstop, bind_of_ok hskip, bind_of_ok hothers]
  rfl

/-- No statements are read at what closes them. -/
lemma reads_statements_nil {stop : TokenKind} (hstop : (ts.headD .eof).kind = stop)
    (hskip : skipOptional stop ts = .ok () rest) :
    Reads 3 (fun n => statements n stop) ts [] rest := by
  refine .of_succ fun n _ => ?_
  rw [statements, peek_bind, if_pos hstop, bind_of_ok hskip]
  rfl

/-- A statement is read before the others. -/
lemma reads_statements_cons {stop : TokenKind} {s : Stmt} {ss : List Stmt} {us : List Lexeme}
    (hnext : (ts.headD .eof).kind ≠ stop) (heof : (ts.headD .eof).kind ≠ .eof)
    (hs : Reads 2 (fun n => statementWith (expression n .lowest)) ts s us)
    (hus : us.length < ts.length) (h : Reads 3 (fun n => statements n stop) us ss rest) :
    Reads 3 (fun n => statements n stop) ts (s :: ss) rest := by
  refine .of_succ fun n hn => ?_
  have hothers := h n (by omega)
  rw [statements, peek_bind, if_neg hnext, if_neg heof, bind_of_ok (hs n hn), bind_of_ok hothers]
  rfl

end

/-! ## First tokens -/

/-- The kinds of the tokens that an expression may start with. -/
def startsExpr : TokenKind → Bool
  | .ident | .int | .string | .kwTrue | .kwFalse | .bang | .minus | .lparen => true
  | .kwIf | .kwFn | .kwMacro | .lbracket | .lbrace => true
  | _ => false

/-- Lexemes start with one that an expression may start with. -/
def Starts (ts : List Lexeme) : Prop :=
  startsExpr (ts.headD .eof).kind = true

/-- Lexemes that start as an expression do so whatever follows. -/
lemma Starts.append {ts : List Lexeme} (h : Starts ts) (us : List Lexeme) :
    Starts (ts ++ us) := by
  cases ts with
  | nil => cases h
  | cons t ts => exact h

/-- Lexemes that start as an expression start with no other token. -/
lemma Starts.ne {ts : List Lexeme} (h : Starts ts) {kind : TokenKind}
    (hkind : startsExpr kind = false) : (ts.headD .eof).kind ≠ kind := by
  rintro rfl
  rw [Starts, hkind] at h
  cases h

/-- Lexemes that start as an expression are not the end of the text. -/
lemma Starts.length_pos {ts : List Lexeme} (h : Starts ts) : 0 < ts.length := by
  cases ts with
  | nil => cases h
  | cons t ts => simp

/-- Spellings of expressions start as expressions, and there is no spelling of statements without
statements but the empty one. -/
lemma spells_starts {strict : Bool} {ph : Phrase} {us : List Lexeme} (h : Spells strict ph us) :
    match ph with
    | .placed _ _ | .expr _ => Starts us
    | .exprs [] | .entries [] | .stmts [] => us = []
    | _ => True := by
  induction h with
  | bare hp h ih => exact ih
  | bool b => cases b <;> rfl
  | @unary op e ts h ih => cases op <;> rfl
  | binary hl hr ihl ihr => exact ihl.append _
  | call hf ha ihf iha => exact ihf.append _
  | index hb hi ihb ihi => exact ihb.append _
  | exprsCons | entriesCons | letBind | retNone | ret | exprStmt | stmtsCons => trivial
  | _ => rfl

/-! ## Expressions -/

/-- An expression that stands wherever `least` is demanded is read to its end by the rule for a
level, and the rest follows it. -/
structure Fits (level : Level) (least : Nat) (rest : List Lexeme) : Prop where
  /-- The level demands no more. -/
  leastAt_le : leastAt level ≤ least
  /-- What follows does not bind more tightly. -/
  nextRank_le : nextRank rest ≤ least
  /-- What follows is not the second block of a choice. -/
  ne_else : (rest.headD .eof).kind ≠ .kwElse
  /-- Calls and indexings belong to the expression. -/
  rank_lt : level.rank < Level.call.rank

/-- Lexemes are read as an expression that stands wherever `least` is demanded: after them, the rule
for expressions goes on with it. -/
def ReadsAs (least : Nat) (e : Expr) (us : List Lexeme) : Prop :=
  ∀ (level : Level) (rest : List Lexeme) (a : Expr) (out : List Lexeme), Fits level least rest →
    Reads 1 (fun n => continuation n level e) rest a out →
    Reads 2 (fun n => expression n level) (us ++ rest) a out

/-- The end of an expression that is followed by no operator. -/
structure Closes (rest : List Lexeme) : Prop where
  /-- What follows binds nothing. -/
  nextRank_eq : nextRank rest = 0
  /-- What follows is not the second block of a choice. -/
  ne_else : (rest.headD .eof).kind ≠ .kwElse

/-- A lexeme that is neither an operator nor `else` closes an expression. -/
lemma closes_lexeme (kind : TokenKind) (rest : List Lexeme)
    (hkind : (Level.ofKind kind).rank = 0 ∧ kind ≠ .kwElse) : Closes (kind.lexeme :: rest) :=
  ⟨hkind.1, hkind.2⟩

/-- An expression behind which nothing follows that binds is read alone. -/
lemma ReadsAs.reads {e : Expr} {us rest : List Lexeme} (h : ReadsAs 1 e us)
    (hrest : Closes rest) :
    Reads 2 (fun n => expression n .lowest) (us ++ rest) e rest := by
  have hnext : nextRank rest ≤ Level.lowest.rank := Nat.le_of_eq hrest.nextRank_eq
  refine h _ _ _ _ ⟨by decide, ?_, hrest.ne_else, by decide⟩ (reads_stop e hnext)
  exact Nat.le_trans hnext (by decide)

/-- What is read as an operand may stand wherever anything is demanded. -/
lemma ReadsAs.of_operand {least : Nat} {e : Expr} {us : List Lexeme}
    (h : ∀ rest : List Lexeme, (rest.headD .eof).kind ≠ .kwElse →
      Reads 1 operand (us ++ rest) e rest) :
    ReadsAs least e us :=
  fun _ rest _ _ hfits hcont => reads_expression (h rest hfits.ne_else) (by simp) hcont

/-- What may stand where more is demanded may stand where less is. -/
lemma ReadsAs.mono {least least' : Nat} {e : Expr} {us : List Lexeme} (h : ReadsAs least' e us)
    (hle : least ≤ least') : ReadsAs least e us :=
  fun _ _ _ _ hfits => h _ _ _ _ ⟨Nat.le_trans hfits.leastAt_le hle,
    Nat.le_trans hfits.nextRank_le hle, hfits.ne_else, hfits.rank_lt⟩

/-- Every expression binds more tightly than nothing. -/
lemma one_le_rank_level (e : Expr) : 1 ≤ e.level.rank := by
  cases e
  case binary op l r => exact op.rank_level_bounds.1
  all_goals simp [Expr.level, Level.rank]

/-- A sign is read with its operand. -/
lemma ReadsAs.unary {op : UnaryOp} {e : Expr} {us : List Lexeme}
    (h : ReadsAs Level.unary.rank e us) :
    ReadsAs Level.unary.rank (.unary op e) (op.kind.lexeme :: us) := by
  intro level rest a out hfits hcont
  have hstop : Reads 1 (fun n => continuation n .unary e) rest e rest :=
    reads_stop e hfits.nextRank_le
  have hoperand := h _ _ _ _ ⟨by decide, hfits.nextRank_le, hfits.ne_else, by decide⟩ hstop
  exact reads_expression (reads_unary hoperand) (by simp; omega) hcont

/-- An operator is read with its operands. -/
lemma ReadsAs.binary {op : BinaryOp} {l r : Expr} {ls rs : List Lexeme}
    (hl : ReadsAs op.level.rank l ls) (hr : ReadsAs (op.level.rank + 1) r rs) :
    ReadsAs op.level.rank (.binary op l r) (ls ++ op.kind.lexeme :: rs) := by
  intro level rest a out hfits hcont
  have hop := op.rank_level_bounds
  have hunary : Level.unary.rank = 5 := rfl
  have hcall : Level.call.rank = 6 := rfl
  have hlevel : level.rank < op.level.rank := by
    have hleast := hfits.leastAt_le
    rw [leastAt] at hleast
    omega
  have hright : Reads 2 (fun n => expression n op.level) (rs ++ rest) r rest :=
    hr _ _ _ _ ⟨Nat.min_le_left _ _, Nat.le_succ_of_le hfits.nextRank_le, hfits.ne_else, by omega⟩
      (reads_stop r hfits.nextRank_le)
  have hnext : nextRank (op.kind.lexeme :: (rs ++ rest)) = op.level.rank :=
    congrArg Level.rank (BinaryOp.ofKind_level op)
  rw [List.append_assoc, List.cons_append]
  refine hl _ _ _ _ ⟨hfits.leastAt_le, Nat.le_of_eq hnext, ?_, hfits.rank_lt⟩
    (reads_binary hlevel hright (by simp) hcont)
  rw [next_lexeme]
  cases op <;> decide

/-! ## All phrases -/

/-- The rules read lexemes as a phrase, whatever follows behind what closes the phrase. -/
def Complete : Phrase → List Lexeme → Prop
  | .placed p e, us => ReadsAs (max 1 p.least) e us
  | .expr e, us => ReadsAs e.level.rank e us
  | .exprs es, us => ∀ stop rest, stop = .rparen ∨ stop = .rbracket → es ≠ [] →
      Reads 3 (fun n => items n stop) (us ++ stop.lexeme :: rest) es rest
  | .entries pairs, us => ∀ rest, Reads 3 entries (us ++ TokenKind.rbrace.lexeme :: rest) pairs rest
  | .stmt s, us => ∀ sep rest, IsOptional .semicolon sep →
      (sep = [] → (rest.headD .eof).kind = .rbrace ∨ (rest.headD .eof).kind = .eof) →
      Reads 2 (fun n => statementWith (expression n .lowest)) (us ++ (sep ++ rest)) s rest
  | .stmts ss, us => ∀ stop ending rest, stop = .rbrace ∨ stop = .eof →
      (ending.headD .eof).kind = stop → skipOptional stop ending = .ok () rest →
      Reads 3 (fun n => statements n stop) (us ++ ending) ss rest

/-- An expression at the end of a list, a statement or a bracket is read alone. -/
lemma Complete.reads {e : Expr} {us rest : List Lexeme} (h : Complete (.placed .free e) us)
    (hrest : Closes rest) : Reads 2 (fun n => expression n .lowest) (us ++ rest) e rest :=
  ReadsAs.reads h hrest

/-- A list is read with what closes it. -/
lemma Complete.reads_list {es : List Expr} {us : List Lexeme} (h : Complete (.exprs es) us)
    (hus : Spells true (.exprs es) us) {stop : TokenKind}
    (hstop : stop = .rparen ∨ stop = .rbracket) (rest : List Lexeme) :
    Reads 4 (fun n => list n stop) (us ++ stop.lexeme :: rest) es rest := by
  cases hus with
  | exprsNil => exact reads_list_nil stop rest
  | @exprsCons e es ts sep vs hsep hlast he hes =>
    have hstarts : Starts ts := spells_starts he
    have hstarts := ((hstarts.append sep).append vs).append (stop.lexeme :: rest)
    refine reads_list_items (hstarts.ne ?_) (h stop rest hstop (by simp))
    rcases hstop with rfl | rfl <;> rfl

/-- The statements of a block are read with the brace behind them. -/
lemma Complete.reads_block {ss : List Stmt} {us : List Lexeme} (h : Complete (.stmts ss) us)
    (rest : List Lexeme) :
    Reads 3 (fun n => statements n .rbrace) (us ++ TokenKind.rbrace.lexeme :: rest) ss rest :=
  h .rbrace _ rest (.inl rfl) rfl (skipOptional_cons TokenKind.rbrace.lexeme rest)

/-- A call is read with its arguments. -/
lemma ReadsAs.call {f : Expr} {args : List Expr} {fs as : List Lexeme}
    (hf : ReadsAs Level.call.rank f fs)
    (ha : ∀ rest,
      Reads 4 (fun n => list n .rparen) (as ++ TokenKind.rparen.lexeme :: rest) args rest) :
    ReadsAs Level.index.rank (.call f args) (fs ++ inParens as) := by
  intro level rest a out hfits hcont
  have hlist := reads_call hfits.rank_lt (ha rest) (by simp; omega) hcont
  have hleast : leastAt level ≤ Level.call.rank :=
    Nat.le_trans (Nat.min_le_right _ _) (by decide)
  have hread := hf _ _ _ _ ⟨hleast, Nat.le_refl _, by rw [next_lexeme]; decide, hfits.rank_lt⟩ hlist
  simpa [inParens] using hread

/-- An indexing is read with its index. -/
lemma ReadsAs.index {b i : Expr} {bs is : List Lexeme} (hb : ReadsAs Level.index.rank b bs)
    (hi : ∀ rest, Reads 2 (fun n => expression n .lowest) (is ++ TokenKind.rbracket.lexeme :: rest)
      i (TokenKind.rbracket.lexeme :: rest)) :
    ReadsAs Level.index.rank (.index b i) (bs ++ inBrackets is) := by
  intro level rest a out hfits hcont
  have hlt : level.rank < Level.index.rank := Nat.lt_trans hfits.rank_lt (by decide)
  have hposition := reads_index hlt (hi rest) (by simp; omega) hcont
  have hread := hb _ _ _ _
    ⟨hfits.leastAt_le, Nat.le_refl _, by rw [next_lexeme]; decide, hfits.rank_lt⟩
    hposition
  simpa [inBrackets] using hread

/-- A list with one member more is read. -/
lemma Complete.exprsCons {e : Expr} {es : List Expr} {ts sep us : List Lexeme}
    (hsep : IsOptional .comma sep) (hlast : sep = [] ↔ es = []) (hts : Starts ts)
    (hus : Spells true (.exprs es) us) (he : Complete (.placed .free e) ts)
    (hes : Complete (.exprs es) us) : Complete (.exprs (e :: es)) (ts ++ sep ++ us) := by
  intro stop rest hstop _
  have hlen := hts.length_pos
  rcases hsep with rfl | rfl
  · obtain rfl := hlast.mp rfl
    obtain rfl : us = [] := spells_starts hus
    rw [List.append_nil, List.append_nil]
    have hcloses : Closes (stop.lexeme :: rest) := by
      rcases hstop with rfl | rfl <;> exact closes_lexeme _ rest (by decide)
    refine reads_items_last ?_ (he.reads hcloses)
    rcases hstop with rfl | rfl <;> decide
  · have hne : es ≠ [] := fun hnil => absurd (hlast.mpr hnil) (by simp)
    rw [List.append_assoc, List.append_assoc]
    refine reads_items_cons (he.reads (closes_lexeme _ _ (by decide))) ?_ (hes stop rest hstop hne)
    simp
    omega

/-- A hash with one entry more is read. -/
lemma Complete.entriesCons {k v : Expr} {pairs : List (Expr × Expr)} {ks vs sep us : List Lexeme}
    (hsep : IsOptional .comma sep) (hlast : sep = [] → pairs = []) (hks : Starts ks)
    (hus : Spells true (.entries pairs) us) (hk : Complete (.placed .free k) ks)
    (hv : Complete (.placed .free v) vs) (hpairs : Complete (.entries pairs) us) :
    Complete (.entries ((k, v) :: pairs)) (ks ++ TokenKind.colon.lexeme :: vs ++ sep ++ us) := by
  intro rest
  have hend : sep = [] → ((us ++ TokenKind.rbrace.lexeme :: rest).headD .eof).kind = .rbrace := by
    intro hnil
    obtain rfl := hlast hnil
    obtain rfl : us = [] := spells_starts hus
    rfl
  have hcloses : Closes (sep ++ (us ++ TokenKind.rbrace.lexeme :: rest)) := by
    rcases hsep with rfl | rfl
    · obtain rfl := hlast rfl
      obtain rfl : us = [] := spells_starts hus
      exact closes_lexeme _ rest (by decide)
    · exact closes_lexeme _ _ (by decide)
  have hkey := hk.reads
    (closes_lexeme .colon (vs ++ (sep ++ (us ++ TokenKind.rbrace.lexeme :: rest))) (by decide))
  have hread := reads_entries_cons ((hks.append _).ne rfl) hkey (by simp; omega)
    (hv.reads hcloses) hsep hend (by simp; omega) (hpairs rest)
  simpa using hread

/-- Behind a statement nothing binds: a semicolon, a closing brace or the end of the text. -/
lemma closes_stmt {sep rest : List Lexeme} (hsep : IsOptional .semicolon sep)
    (hend : sep = [] → (rest.headD .eof).kind = .rbrace ∨ (rest.headD .eof).kind = .eof) :
    Closes (sep ++ rest) := by
  rcases hsep with rfl | rfl
  · have hkind := hend rfl
    constructor
    · rw [List.nil_append, nextRank]
      rcases hkind with h | h <;> rw [h] <;> rfl
    · rw [List.nil_append]
      rcases hkind with h | h <;> rw [h] <;> decide
  · exact closes_lexeme _ _ (by decide)

/-- The semicolon behind a statement is read if there is one. -/
lemma skip_semicolon {sep rest : List Lexeme} (hsep : IsOptional .semicolon sep)
    (hend : sep = [] → (rest.headD .eof).kind = .rbrace ∨ (rest.headD .eof).kind = .eof) :
    skipOptional .semicolon (sep ++ rest) = .ok () rest := by
  refine skipOptional_sep hsep fun hnil => ?_
  rcases hend hnil with h | h <;> rw [h] <;> decide

/-- A binding is read. -/
lemma Complete.letBind {name : String} {e : Expr} {us : List Lexeme}
    (h : Complete (.placed .free e) us) : Complete (.stmt (.letBind name e))
      (TokenKind.kwLet.lexeme :: nameLexeme name :: TokenKind.assign.lexeme :: us) := by
  intro sep rest hsep hend n hn
  simp only [List.length_cons, List.cons_append] at hn
  have hread := h.reads (closes_stmt hsep hend) n (by omega)
  rw [List.cons_append, List.cons_append, List.cons_append]
  show statementWith (expression n .lowest) _ = _
  rw [statementWith, peek_bind]
  refine (bind_of_ok (expect_lexeme _ _)).trans ?_
  rw [bind_of_ok (expect_nameLexeme _ _), bind_of_ok (expect_lexeme _ _), bind_of_ok hread,
    bind_of_ok (skip_semicolon hsep hend)]
  rfl

/-- A `return` without a value is read. -/
lemma Complete.retNone : Complete (.stmt (.ret none)) [TokenKind.kwReturn.lexeme] := by
  intro sep rest hsep hend n _
  have hnext : ((sep ++ rest).headD .eof).kind = .semicolon ∨
      ((sep ++ rest).headD .eof).kind = .eof ∨
      ((sep ++ rest).headD .eof).kind = .rbrace := by
    rcases hsep with rfl | rfl
    · exact .inr (hend rfl).symm
    · exact .inl rfl
  rw [List.singleton_append]
  show statementWith (expression n .lowest) _ = _
  rw [statementWith, peek_bind]
  refine (bind_of_ok (expect_lexeme _ _)).trans ?_
  rw [peek_bind, if_pos hnext, bind_of_ok (skip_semicolon hsep hend)]
  rfl

/-- A `return` with a value is read. -/
lemma Complete.ret {e : Expr} {us : List Lexeme} (hus : Starts us)
    (h : Complete (.placed .free e) us) :
    Complete (.stmt (.ret (some e))) (TokenKind.kwReturn.lexeme :: us) := by
  intro sep rest hsep hend n hn
  simp only [List.length_cons, List.cons_append] at hn
  have hread := h.reads (closes_stmt hsep hend) n (by omega)
  have hstarts := hus.append (sep ++ rest)
  have hnext : ¬ (((us ++ (sep ++ rest)).headD .eof).kind = .semicolon ∨
      ((us ++ (sep ++ rest)).headD .eof).kind = .eof ∨
      ((us ++ (sep ++ rest)).headD .eof).kind = .rbrace) := by
    rintro (h | h | h)
    · exact hstarts.ne rfl h
    · exact hstarts.ne rfl h
    · exact hstarts.ne rfl h
  rw [List.cons_append]
  show statementWith (expression n .lowest) _ = _
  rw [statementWith, peek_bind]
  refine (bind_of_ok (expect_lexeme _ _)).trans ?_
  rw [peek_bind, if_neg hnext, bind_of_ok hread, bind_of_ok (skip_semicolon hsep hend)]
  rfl

/-- An expression that stands as a statement is read. -/
lemma Complete.exprStmt {e : Expr} {us : List Lexeme} (hus : Starts us)
    (h : Complete (.placed .free e) us) : Complete (.stmt (.expr e)) us := by
  intro sep rest hsep hend n hn
  have hread := h.reads (closes_stmt hsep hend) n hn
  have hstarts := hus.append (sep ++ rest)
  have hbody : (expression n .lowest >>= fun value => skipOptional .semicolon >>= fun _ =>
      (Pure.pure (.expr value) : Rule Stmt)) (us ++ (sep ++ rest)) = .ok (.expr e) rest := by
    rw [bind_of_ok hread, bind_of_ok (skip_semicolon hsep hend)]
    rfl
  show statementWith (expression n .lowest) _ = _
  rw [Starts] at hstarts
  rw [statementWith, peek_bind]
  generalize ((us ++ (sep ++ rest)).headD .eof).kind = kind at hstarts ⊢
  cases kind
  case kwLet | kwReturn => cases hstarts
  all_goals exact hbody

/-- The first token of a statement closes no statements. -/
lemma stmt_starts {strict : Bool} {s : Stmt} {us : List Lexeme}
    (h : Spells strict (.stmt s) us) (rest : List Lexeme) :
    0 < us.length ∧ ((us ++ rest).headD .eof).kind ≠ .rbrace ∧
      ((us ++ rest).headD .eof).kind ≠ .eof := by
  cases h with
  | letBind hname h =>
    exact ⟨by simp, show TokenKind.kwLet ≠ _ by decide, show TokenKind.kwLet ≠ _ by decide⟩
  | retNone | ret h =>
    exact ⟨by simp, show TokenKind.kwReturn ≠ _ by decide, show TokenKind.kwReturn ≠ _ by decide⟩
  | exprStmt h =>
    have hstarts : Starts us := spells_starts h
    exact ⟨hstarts.length_pos, (hstarts.append rest).ne rfl, (hstarts.append rest).ne rfl⟩

/-- Statements with one more at the front are read. -/
lemma Complete.stmtsCons {s : Stmt} {ss : List Stmt} {ts sep us : List Lexeme}
    (hsep : IsOptional .semicolon sep) (hlast : sep = [] → ss = [])
    (hts : Spells true (.stmt s) ts) (hus : Spells true (.stmts ss) us)
    (hs : Complete (.stmt s) ts) (hss : Complete (.stmts ss) us) :
    Complete (.stmts (s :: ss)) (ts ++ sep ++ us) := by
  intro stop ending rest hstop hending hskip
  obtain ⟨hlen, hbrace, heof⟩ := stmt_starts hts (sep ++ (us ++ ending))
  have hend : sep = [] → ((us ++ ending).headD .eof).kind = .rbrace ∨
      ((us ++ ending).headD .eof).kind = .eof := by
    intro hnil
    obtain rfl := hlast hnil
    obtain rfl : us = [] := spells_starts hus
    rw [List.nil_append, hending]
    exact hstop
  rw [List.append_assoc, List.append_assoc]
  refine reads_statements_cons ?_ heof (hs sep _ hsep hend) (by simp; omega)
    (hss stop ending rest hstop hending hskip)
  rcases hstop with rfl | rfl
  · exact hbrace
  · exact heof

/-- **The rules read every strict spelling as what it spells.**

**Proof sketch.** Induction on the spelling. For an expression `ReadsAs` lets the rule go on with an
arbitrary rest, which is what the spelling of an operator's left operand or of a called expression
needs: there the rest begins with the operator or the parenthesis. -/
theorem complete {ph : Phrase} {us : List Lexeme} (h : Spells true ph us) : Complete ph us := by
  induction h with
  | @bare p e ts hp h ih =>
    exact ReadsAs.mono ih (Nat.max_le.mpr ⟨one_le_rank_level e, hp⟩)
  | @paren p e ts h ih =>
    refine ReadsAs.of_operand fun rest _ => ?_
    have hread := reads_paren (ih.reads (closes_lexeme .rparen rest (by decide)))
    simpa [inParens] using hread
  | ident h => exact ReadsAs.of_operand fun rest _ => reads_ident _ rest
  | int h hn => exact ReadsAs.of_operand fun rest _ => reads_int hn rest
  | bool b => exact ReadsAs.of_operand fun rest _ => reads_bool b rest
  | str h => exact ReadsAs.of_operand fun rest _ => reads_str _ rest
  | unary h ih => exact ReadsAs.unary ih
  | @binary op l r ls rs hl hr ihl ihr =>
    exact ReadsAs.binary (ihl.mono (Nat.le_max_right _ _)) (ihr.mono (Nat.le_max_right _ _))
  | @cond c yes cs ys hc hy ihc ihy =>
    refine ReadsAs.of_operand fun rest hrest => ?_
    have hread := reads_cond (ihc.reads (closes_lexeme .rparen _ (by decide)))
      (by simp; omega) (ihy.reads_block rest) hrest
    simpa [inParens, inBraces] using hread
  | @condElse c yes no cs ys ns hc hy hn ihc ihy ihn =>
    refine ReadsAs.of_operand fun rest _ => ?_
    have hread := reads_condElse (ihc.reads (closes_lexeme .rparen _ (by decide)))
      (by simp; omega) (ihy.reads_block _) (by simp; omega) (ihn.reads_block rest)
    simpa [inParens, inBraces] using hread
  | @fnLit ns body bs hp hb ih =>
    refine ReadsAs.of_operand fun rest _ => ?_
    have hread := (reads_literal ns (ih.reads_block rest)).1
    simpa [inParens, inBraces] using hread
  | @macroLit ns body bs hp hb ih =>
    refine ReadsAs.of_operand fun rest _ => ?_
    have hread := (reads_literal ns (ih.reads_block rest)).2
    simpa [inParens, inBraces] using hread
  | call hf ha ihf iha => exact ReadsAs.call ihf fun rest => iha.reads_list ha (.inl rfl) rest
  | index hb hi ihb ihi =>
    exact ReadsAs.index ihb fun rest => ihi.reads (closes_lexeme _ rest (by decide))
  | array h ih =>
    refine ReadsAs.of_operand fun rest _ => ?_
    have hread := reads_array (ih.reads_list h (.inr rfl) rest)
    simpa [inBrackets] using hread
  | hash h ih =>
    refine ReadsAs.of_operand fun rest _ => ?_
    have hread := reads_hash (ih rest)
    simpa [inBraces] using hread
  | exprsNil =>
    intro stop rest _ hne
    exact absurd rfl hne
  | exprsCons hsep hlast he hes ihe ihes =>
    exact .exprsCons hsep hlast (spells_starts he) hes ihe ihes
  | entriesNil => exact fun rest => reads_entries_nil rest
  | entriesCons hsep hlast hk hv hpairs ihk ihv ihpairs =>
    exact .entriesCons hsep hlast (spells_starts hk) hpairs ihk ihv ihpairs
  | letBind hname h ih => exact ih.letBind
  | retNone => exact .retNone
  | ret h ih => exact .ret (spells_starts h) ih
  | exprStmt h ih => exact .exprStmt (spells_starts h) ih
  | stmtsNil => exact fun stop ending rest _ hending hskip => reads_statements_nil hending hskip
  | stmtsCons hsep hlast hs hss ihs ihss =>
    exact .stmtsCons hsep (fun hnil => hlast hnil rfl) hs hss ihs ihss

end Grammar

/-! ## Texts -/

/-- A strict spelling of a program is read as the program. -/
lemma Program.ofLexemes_of_isSpelling {program : Program} {ts : List Lexeme}
    (h : program.IsSpelling true ts) : Program.ofLexemes ts = .ok program := by
  have hread : Grammar.statements (Grammar.budget ts) .eof (ts ++ []) = .ok program [] :=
    Grammar.complete h .eof [] [] (.inr rfl) rfl rfl _ (by simp [Grammar.budget])
  rw [List.append_nil] at hread
  rw [Program.ofLexemes]
  split
  case h_1 hok =>
    rw [hok] at hread
    cases hread
    rfl
  case h_2 hfail =>
    rw [hfail] at hread
    cases hread
  case h_3 hexhausted => exact absurd hexhausted (Grammar.statements_ne_exhausted _ _)

/-- **Every writable program has texts, and every one of them is read as that program.** -/
theorem parse_complete {program : Program} (h : program.Writable) :
    (∃ source, program.IsText source) ∧
      ∀ source, program.IsText source → parse source = .ok program := by
  refine ⟨Program.exists_isText h, ?_⟩
  rintro source ⟨ts, hspells, hlayout⟩
  rw [parse_eq_ok_iff, Layout.lexemes_eq hlayout hspells.isWritten]
  exact Program.ofLexemes_of_isSpelling hspells

/-- A function that is called on the spot, and an operator on the right of another one. -/
theorem parse_complete_call :
    let program : Program := [.expr (.binary .sub
      (.call (.fnLit ["x"] [.ret (some (.ident "x"))]) [.int 1])
      (.binary .sub (.ident "a") (.bool true)))]
    program.Writable ∧ (∃ source, program.IsText source) ∧
      ∀ source, program.IsText source → parse source = .ok program := by
  intro program
  have hx : IsName "x" := ⟨by decide, List.all_eq_true.mp (by decide), by decide⟩
  have ha : IsName "a" := ⟨by decide, List.all_eq_true.mp (by decide), by decide⟩
  have h : program.Writable := by
    simp [program, Program.Writable, writableStmts, writableExprs, Stmt.Writable, Expr.Writable,
      hx, ha]
  exact ⟨h, parse_complete h⟩

end QuoteLang
