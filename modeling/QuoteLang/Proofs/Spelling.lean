import QuoteLang.Proofs.Layout

set_option relaxedAutoImplicit false
set_option autoImplicit false

/-!
# Spellings

What lists of lexemes a program may be spelled with. Every part of a program is spelled with tokens
of its own and with the spellings of its parts, in the order of the source. Beyond that a spelling
is free to leave out some semicolons, to write a comma after the last entry of a hash, to choose the
digits of an integer, and to put parentheses around any expression. Parentheses are needed where the
operators around an expression bind more tightly than the expression itself.

The relation says nothing about how a spelling is read. It is the second side of what is proved
about the grammar.

## Main definitions

* `Place` — where an expression stands, as far as it decides about parentheses.
* `Place.Admits` — an expression needs no parentheses in a place.
* `Phrase` — the parts of a program that have spellings.
* `Spells` — a list of lexemes is a spelling of a phrase.
* `Program.IsSpelling`, `Program.IsText` — a list of lexemes, or a text, spells a program.
* `Program.Writable` — the programs that can be spelled.

## Main results

* `Spells.isWritten` — spellings consist of lexemes that can be met in a text.
* `Spells.writable`, `Program.exists_isText` — a program can be spelled exactly if it is writable.
-/

namespace QuoteLang

/-! ## Parentheses -/

/-- Where an expression stands, as far as it decides about parentheses. -/
inductive Place
  /-- Between brackets or separators, or as the end of a statement. -/
  | free
  /-- The left operand of an operator. -/
  | leftOf (op : BinaryOp)
  /-- The right operand of an operator. -/
  | rightOf (op : BinaryOp)
  /-- The operand of an operator that stands before it. -/
  | operand
  /-- The expression that is called. -/
  | callee
  /-- The expression that is indexed. -/
  | base

/-- How tightly an expression binds. Only the operators bind less tightly than an index. -/
def Expr.level : Expr → Level
  | .binary op _ _ => op.level
  | .unary _ _ => .unary
  | _ => .index

/-- How tightly an expression has to bind to stand in a place without parentheses. Operators of two
operands are grouped from the left, so on the right of one even an operator of its own level needs
parentheses. -/
def Place.least : Place → Nat
  | free => 0
  | leftOf op => op.level.rank
  | rightOf op => op.level.rank + 1
  | operand => Level.unary.rank
  | callee => Level.call.rank
  | base => Level.index.rank

/-- An expression needs no parentheses in a place if it binds tightly enough for it. -/
def Place.Admits (p : Place) (e : Expr) : Prop :=
  p.least ≤ e.level.rank

/-- An operator of two operands binds more tightly than nothing and less tightly than a sign. -/
lemma BinaryOp.rank_level_bounds (op : BinaryOp) : 1 ≤ op.level.rank ∧ op.level.rank ≤ 4 := by
  cases op <;> decide

/-! ## Phrases and their spellings -/

/-- The kind of the token that an operator of one operand is written with. -/
def UnaryOp.kind : UnaryOp → TokenKind
  | not => .bang
  | neg => .minus

/-- The parts of a program that have spellings. -/
inductive Phrase
  /-- An expression in a place, with parentheses if it needs or has some. -/
  | placed (p : Place) (e : Expr)
  /-- An expression without parentheses around it. -/
  | expr (e : Expr)
  /-- The expressions of a list. -/
  | exprs (es : List Expr)
  /-- The entries of a hash. -/
  | entries (entries : List (Expr × Expr))
  /-- A statement without its semicolon. -/
  | stmt (s : Stmt)
  /-- The statements of a block or a program. -/
  | stmts (ss : List Stmt)

/-- Lexemes in parentheses. -/
def inParens (ts : List Lexeme) : List Lexeme :=
  TokenKind.lparen.lexeme :: ts ++ [TokenKind.rparen.lexeme]

/-- Lexemes in braces. -/
def inBraces (ts : List Lexeme) : List Lexeme :=
  TokenKind.lbrace.lexeme :: ts ++ [TokenKind.rbrace.lexeme]

/-- Lexemes in brackets. -/
def inBrackets (ts : List Lexeme) : List Lexeme :=
  TokenKind.lbracket.lexeme :: ts ++ [TokenKind.rbracket.lexeme]

/-- The lexeme of a name. -/
def nameLexeme (name : String) : Lexeme := ⟨.ident, name⟩

/-- Names with a comma between any two. -/
def spellNames : List String → List Lexeme
  | [] => []
  | [name] => [nameLexeme name]
  | name :: names => nameLexeme name :: TokenKind.comma.lexeme :: spellNames names

/-- A separator that is there or not. -/
def IsOptional (kind : TokenKind) (ts : List Lexeme) : Prop :=
  ts = [] ∨ ts = [kind.lexeme]

/-- A list of lexemes is a **spelling** of a phrase. Where spelling is `strict`, a semicolon may be
left out only after the last statement of a block or a program. -/
inductive Spells (strict : Bool) : Phrase → List Lexeme → Prop
  /-- Parentheses may be left out where the place admits it. -/
  | bare {p : Place} {e : Expr} {ts : List Lexeme} (hp : p.Admits e)
      (h : Spells strict (.expr e) ts) : Spells strict (.placed p e) ts
  /-- Parentheses may stand around every expression, any number of times. -/
  | paren {p : Place} {e : Expr} {ts : List Lexeme} (h : Spells strict (.placed .free e) ts) :
      Spells strict (.placed p e) (inParens ts)
  /-- A name. -/
  | ident {name : String} (h : IsName name) : Spells strict (.expr (.ident name)) [nameLexeme name]
  /-- An integer, as any run of digits with its value. -/
  | int {n : Int64} {digits : String} (h : IsDigits digits)
      (hn : n.toInt = Nat.ofDigitChars 10 digits.toList 0) :
      Spells strict (.expr (.int n)) [⟨.int, digits⟩]
  /-- A truth value. -/
  | bool (b : Bool) :
      Spells strict (.expr (.bool b))
        [if b then TokenKind.kwTrue.lexeme else TokenKind.kwFalse.lexeme]
  /-- A string. -/
  | str {text : String} (h : IsUnquoted text) : Spells strict (.expr (.str text)) [⟨.string, text⟩]
  /-- An operator before its operand. -/
  | unary {op : UnaryOp} {e : Expr} {ts : List Lexeme} (h : Spells strict (.placed .operand e) ts) :
      Spells strict (.expr (.unary op e)) (op.kind.lexeme :: ts)
  /-- An operator between its operands. -/
  | binary {op : BinaryOp} {l r : Expr} {ls rs : List Lexeme}
      (hl : Spells strict (.placed (.leftOf op) l) ls)
      (hr : Spells strict (.placed (.rightOf op) r) rs) :
      Spells strict (.expr (.binary op l r)) (ls ++ op.kind.lexeme :: rs)
  /-- A choice with one block. -/
  | cond {c : Expr} {yes : List Stmt} {cs ys : List Lexeme}
      (hc : Spells strict (.placed .free c) cs) (hy : Spells strict (.stmts yes) ys) :
      Spells strict (.expr (.cond c yes none)) (TokenKind.kwIf.lexeme :: inParens cs ++ inBraces ys)
  /-- A choice with two blocks. -/
  | condElse {c : Expr} {yes no : List Stmt} {cs ys ns : List Lexeme}
      (hc : Spells strict (.placed .free c) cs) (hy : Spells strict (.stmts yes) ys)
      (hn : Spells strict (.stmts no) ns) :
      Spells strict (.expr (.cond c yes (some no)))
        (TokenKind.kwIf.lexeme :: inParens cs ++ inBraces ys ++
          TokenKind.kwElse.lexeme :: inBraces ns)
  /-- A function literal. -/
  | fnLit {params : List String} {body : List Stmt} {bs : List Lexeme}
      (hp : ∀ name ∈ params, IsName name) (hb : Spells strict (.stmts body) bs) :
      Spells strict (.expr (.fnLit params body))
        (TokenKind.kwFn.lexeme :: inParens (spellNames params) ++ inBraces bs)
  /-- A macro literal. -/
  | macroLit {params : List String} {body : List Stmt} {bs : List Lexeme}
      (hp : ∀ name ∈ params, IsName name) (hb : Spells strict (.stmts body) bs) :
      Spells strict (.expr (.macroLit params body))
        (TokenKind.kwMacro.lexeme :: inParens (spellNames params) ++ inBraces bs)
  /-- A call. -/
  | call {f : Expr} {args : List Expr} {fs as : List Lexeme}
      (hf : Spells strict (.placed .callee f) fs) (ha : Spells strict (.exprs args) as) :
      Spells strict (.expr (.call f args)) (fs ++ inParens as)
  /-- An element of an array or a hash. -/
  | index {b i : Expr} {bs is : List Lexeme} (hb : Spells strict (.placed .base b) bs)
      (hi : Spells strict (.placed .free i) is) :
      Spells strict (.expr (.index b i)) (bs ++ inBrackets is)
  /-- An array literal. -/
  | array {items : List Expr} {ts : List Lexeme} (h : Spells strict (.exprs items) ts) :
      Spells strict (.expr (.array items)) (inBrackets ts)
  /-- A hash literal. -/
  | hash {pairs : List (Expr × Expr)} {ts : List Lexeme} (h : Spells strict (.entries pairs) ts) :
      Spells strict (.expr (.hash pairs)) (inBraces ts)
  /-- No expressions. -/
  | exprsNil : Spells strict (.exprs []) []
  /-- Expressions with a comma after each but the last. -/
  | exprsCons {e : Expr} {es : List Expr} {ts sep us : List Lexeme} (hsep : IsOptional .comma sep)
      (hlast : sep = [] ↔ es = []) (he : Spells strict (.placed .free e) ts)
      (hes : Spells strict (.exprs es) us) : Spells strict (.exprs (e :: es)) (ts ++ sep ++ us)
  /-- No entries. -/
  | entriesNil : Spells strict (.entries []) []
  /-- Entries with a comma after each, which may be left out after the last. -/
  | entriesCons {k v : Expr} {pairs : List (Expr × Expr)} {ks vs sep us : List Lexeme}
      (hsep : IsOptional .comma sep) (hlast : sep = [] → pairs = [])
      (hk : Spells strict (.placed .free k) ks) (hv : Spells strict (.placed .free v) vs)
      (hpairs : Spells strict (.entries pairs) us) :
      Spells strict (.entries ((k, v) :: pairs)) (ks ++ TokenKind.colon.lexeme :: vs ++ sep ++ us)
  /-- A binding. -/
  | letBind {name : String} {e : Expr} {ts : List Lexeme} (hname : IsName name)
      (h : Spells strict (.placed .free e) ts) :
      Spells strict (.stmt (.letBind name e))
        (TokenKind.kwLet.lexeme :: nameLexeme name :: TokenKind.assign.lexeme :: ts)
  /-- A `return` without a value. -/
  | retNone : Spells strict (.stmt (.ret none)) [TokenKind.kwReturn.lexeme]
  /-- A `return` with a value. -/
  | ret {e : Expr} {ts : List Lexeme} (h : Spells strict (.placed .free e) ts) :
      Spells strict (.stmt (.ret (some e))) (TokenKind.kwReturn.lexeme :: ts)
  /-- An expression that stands as a statement. -/
  | exprStmt {e : Expr} {ts : List Lexeme} (h : Spells strict (.placed .free e) ts) :
      Spells strict (.stmt (.expr e)) ts
  /-- No statements. -/
  | stmtsNil : Spells strict (.stmts []) []
  /-- Statements with semicolons, some of which may be left out. -/
  | stmtsCons {s : Stmt} {ss : List Stmt} {ts sep us : List Lexeme}
      (hsep : IsOptional .semicolon sep) (hlast : sep = [] → strict = true → ss = [])
      (hs : Spells strict (.stmt s) ts)
      (hss : Spells strict (.stmts ss) us) : Spells strict (.stmts (s :: ss)) (ts ++ sep ++ us)

/-- A list of lexemes spells a program. -/
def Program.IsSpelling (strict : Bool) (program : Program) (ts : List Lexeme) : Prop :=
  Spells strict (.stmts program) ts

/-- A text spells a program: it lays out a strict spelling of it. -/
def Program.IsText (program : Program) (source : String) : Prop :=
  ∃ ts, program.IsSpelling true ts ∧ Layout ts source.toList

/-! ## Spellings consist of written lexemes -/

/-- The lexeme of a kind that leaves no choice is written. -/
lemma TokenKind.isWritten_lexeme {kind : TokenKind} (h : kind.text ≠ "") :
    kind.lexeme.IsWritten := by
  cases kind <;> first | rfl | exact absurd rfl h

/-- The sign of an operator is written. -/
lemma BinaryOp.isWritten_lexeme (op : BinaryOp) : op.kind.lexeme.IsWritten := by
  cases op <;> rfl

/-- The sign of an operator is written. -/
lemma UnaryOp.isWritten_lexeme (op : UnaryOp) : op.kind.lexeme.IsWritten := by
  cases op <;> rfl

/-- The lexeme of a name is written. -/
lemma isWritten_nameLexeme {name : String} (h : IsName name) : (nameLexeme name).IsWritten := h

/-- Names and the commas between them are written. -/
lemma isWritten_spellNames {names : List String} (h : ∀ name ∈ names, IsName name) :
    ∀ t ∈ spellNames names, t.IsWritten := by
  fun_induction spellNames names with
  | case1 => simp
  | case2 name => simpa [Lexeme.IsWritten, nameLexeme] using h
  | case3 name names _ ih =>
    simp only [List.forall_mem_cons] at h ⊢
    exact ⟨h.1, TokenKind.isWritten_lexeme (by decide), ih h.2⟩

/-- A separator is written. -/
lemma isWritten_of_isOptional {kind : TokenKind} {ts : List Lexeme} (h : IsOptional kind ts)
    (hkind : kind.text ≠ "") : ∀ t ∈ ts, t.IsWritten := by
  rcases h with rfl | rfl
  · simp
  · simpa using TokenKind.isWritten_lexeme hkind

/-- Lexemes between two brackets are written if they are. -/
lemma isWritten_enclosed {opening closing : TokenKind} {ts : List Lexeme}
    (h : ∀ t ∈ ts, t.IsWritten) (hkinds : opening.text ≠ "" ∧ closing.text ≠ "") :
    ∀ t ∈ opening.lexeme :: ts ++ [closing.lexeme], t.IsWritten := by
  rw [List.cons_append, List.forall_mem_cons, List.forall_mem_append, List.forall_mem_singleton]
  exact ⟨TokenKind.isWritten_lexeme hkinds.1, h, TokenKind.isWritten_lexeme hkinds.2⟩

/-- **Spellings consist of lexemes that can be met in a text.** -/
theorem Spells.isWritten {strict : Bool} {ph : Phrase} {ts : List Lexeme}
    (h : Spells strict ph ts) : ∀ t ∈ ts, t.IsWritten := by
  have fixed {kind : TokenKind} (hkind : kind.text ≠ "") : kind.lexeme.IsWritten :=
    TokenKind.isWritten_lexeme hkind
  induction h with
  | bare hp h ih => exact ih
  | paren h ih => exact isWritten_enclosed ih (by decide)
  | exprsNil | entriesNil | stmtsNil => simp
  | ident h => simpa using isWritten_nameLexeme h
  | int h hn => simpa [Lexeme.IsWritten] using h
  | bool b => cases b <;> simpa using fixed (by decide)
  | str h => simpa [Lexeme.IsWritten] using h
  | unary h ih =>
    rw [List.forall_mem_cons]
    exact ⟨UnaryOp.isWritten_lexeme _, ih⟩
  | binary hl hr ihl ihr =>
    rw [List.forall_mem_append, List.forall_mem_cons]
    exact ⟨ihl, BinaryOp.isWritten_lexeme _, ihr⟩
  | cond hc hy ihc ihy =>
    rw [List.cons_append, List.forall_mem_cons, List.forall_mem_append]
    exact ⟨fixed (by decide), isWritten_enclosed ihc (by decide),
      isWritten_enclosed ihy (by decide)⟩
  | condElse hc hy hn ihc ihy ihn =>
    rw [List.cons_append, List.cons_append, List.forall_mem_cons, List.forall_mem_append,
      List.forall_mem_append, List.forall_mem_cons]
    exact ⟨fixed (by decide), ⟨isWritten_enclosed ihc (by decide),
      isWritten_enclosed ihy (by decide)⟩, fixed (by decide), isWritten_enclosed ihn (by decide)⟩
  | fnLit hp hb ih | macroLit hp hb ih =>
    rw [List.cons_append, List.forall_mem_cons, List.forall_mem_append]
    exact ⟨fixed (by decide), isWritten_enclosed (isWritten_spellNames hp) (by decide),
      isWritten_enclosed ih (by decide)⟩
  | call hf ha ihf iha =>
    rw [List.forall_mem_append]
    exact ⟨ihf, isWritten_enclosed iha (by decide)⟩
  | index hb hi ihb ihi =>
    rw [List.forall_mem_append]
    exact ⟨ihb, isWritten_enclosed ihi (by decide)⟩
  | array h ih => exact isWritten_enclosed ih (by decide)
  | hash h ih => exact isWritten_enclosed ih (by decide)
  | exprsCons hsep hlast he hes ihe ihes =>
    rw [List.forall_mem_append, List.forall_mem_append]
    exact ⟨⟨ihe, isWritten_of_isOptional hsep (by decide)⟩, ihes⟩
  | entriesCons hsep hlast hk hv hpairs ihk ihv ihpairs =>
    rw [List.forall_mem_append, List.forall_mem_append, List.forall_mem_append,
      List.forall_mem_cons]
    exact ⟨⟨⟨ihk, fixed (by decide), ihv⟩, isWritten_of_isOptional hsep (by decide)⟩, ihpairs⟩
  | letBind hname h ih =>
    rw [List.forall_mem_cons, List.forall_mem_cons, List.forall_mem_cons]
    exact ⟨fixed (by decide), isWritten_nameLexeme hname, fixed (by decide), ih⟩
  | retNone => simpa using fixed (by decide)
  | ret h ih =>
    rw [List.forall_mem_cons]
    exact ⟨fixed (by decide), ih⟩
  | exprStmt h ih => exact ih
  | stmtsCons hsep hlast hs hss ihs ihss =>
    rw [List.forall_mem_append, List.forall_mem_append]
    exact ⟨⟨ihs, isWritten_of_isOptional hsep (by decide)⟩, ihss⟩

/-! ## Writable programs -/

mutual

/-- An expression can be spelled: its names are names, its integers are not negative, and its
strings contain no quote. -/
def Expr.Writable : Expr → Prop
  | .ident name => IsName name
  | .int n => 0 ≤ n.toInt
  | .bool _ => True
  | .str text => IsUnquoted text
  | .unary _ e => e.Writable
  | .binary _ l r => l.Writable ∧ r.Writable
  | .cond c yes none => c.Writable ∧ writableStmts yes
  | .cond c yes (some no) => c.Writable ∧ writableStmts yes ∧ writableStmts no
  | .fnLit params body => (∀ name ∈ params, IsName name) ∧ writableStmts body
  | .call f args => f.Writable ∧ writableExprs args
  | .array items => writableExprs items
  | .hash pairs => writableEntries pairs
  | .index base position => base.Writable ∧ position.Writable
  | .macroLit params body => (∀ name ∈ params, IsName name) ∧ writableStmts body

/-- A statement can be spelled. -/
def Stmt.Writable : Stmt → Prop
  | .letBind name value => IsName name ∧ value.Writable
  | .ret none => True
  | .ret (some value) => value.Writable
  | .expr value => value.Writable

/-- All statements of a list can be spelled. -/
def writableStmts : List Stmt → Prop
  | [] => True
  | s :: rest => s.Writable ∧ writableStmts rest

/-- All expressions of a list can be spelled. -/
def writableExprs : List Expr → Prop
  | [] => True
  | e :: rest => e.Writable ∧ writableExprs rest

/-- All keys and values of a hash literal can be spelled. -/
def writableEntries : List (Expr × Expr) → Prop
  | [] => True
  | (key, value) :: rest => key.Writable ∧ value.Writable ∧ writableEntries rest

end

/-- A program can be spelled: every name in it is a word that is not reserved, every integer is not
negative, and no string contains a quote. -/
def Program.Writable (program : Program) : Prop :=
  writableStmts program

/-- A phrase can be spelled. -/
def Phrase.Writable : Phrase → Prop
  | placed _ e => e.Writable
  | expr e => e.Writable
  | exprs es => writableExprs es
  | entries pairs => writableEntries pairs
  | stmt s => s.Writable
  | stmts ss => writableStmts ss

/-- **What has a spelling is writable.** -/
theorem Spells.writable {strict : Bool} {ph : Phrase} {ts : List Lexeme} (h : Spells strict ph ts) :
    ph.Writable := by
  induction h with
  | int h hn =>
    rw [Phrase.Writable, Expr.Writable, hn]
    exact Int.natCast_nonneg _
  | _ => simp_all [Phrase.Writable, Expr.Writable, Stmt.Writable, writableStmts, writableExprs,
      writableEntries]

/-! ## Every writable program has a spelling -/

/-- What is spelled without parentheses is spelled with parentheses in every place. -/
lemma Spells.placed {strict : Bool} {e : Expr} {ts : List Lexeme} (h : Spells strict (.expr e) ts)
    (p : Place) : Spells strict (.placed p e) (inParens ts) :=
  .paren (.bare (Nat.zero_le _) h)

/-- Expressions have a spelling as a list if each of them has one. -/
lemma exists_spells_exprs {strict : Bool} {es : List Expr}
    (h : ∀ e ∈ es, e.Writable → ∃ ts, Spells strict (.expr e) ts) (hes : writableExprs es) :
    ∃ ts, Spells strict (.exprs es) ts := by
  induction es with
  | nil => exact ⟨[], .exprsNil⟩
  | cons e es ih =>
    rw [writableExprs] at hes
    obtain ⟨ts, hts⟩ := h e List.mem_cons_self hes.1
    obtain ⟨us, hus⟩ := ih (fun e' he' => h e' (List.mem_cons_of_mem _ he')) hes.2
    by_cases hlast : es = []
    · exact ⟨_, .exprsCons (.inl rfl) (by simp [hlast]) (hts.placed .free) hus⟩
    · exact ⟨_, .exprsCons (.inr rfl) (by simp [hlast]) (hts.placed .free) hus⟩

/-- Entries have a spelling as a list if each key and value has one. -/
lemma exists_spells_entries {strict : Bool} {pairs : List (Expr × Expr)}
    (h : ∀ e ∈ pairs, (e.1.Writable → ∃ ts, Spells strict (.expr e.1) ts) ∧
      (e.2.Writable → ∃ ts, Spells strict (.expr e.2) ts)) (hpairs : writableEntries pairs) :
    ∃ ts, Spells strict (.entries pairs) ts := by
  induction pairs with
  | nil => exact ⟨[], .entriesNil⟩
  | cons pair pairs ih =>
    obtain ⟨k, v⟩ := pair
    rw [writableEntries] at hpairs
    obtain ⟨hk, hv⟩ := h (k, v) List.mem_cons_self
    obtain ⟨ks, hks⟩ := hk hpairs.1
    obtain ⟨vs, hvs⟩ := hv hpairs.2.1
    obtain ⟨us, hus⟩ := ih (fun e he => h e (List.mem_cons_of_mem _ he)) hpairs.2.2
    exact ⟨_, .entriesCons (.inr rfl) (by simp) (hks.placed .free) (hvs.placed .free) hus⟩

/-- Statements have a spelling as a list if each of them has one. -/
lemma exists_spells_stmts {strict : Bool} {ss : List Stmt}
    (h : ∀ s ∈ ss, s.Writable → ∃ ts, Spells strict (.stmt s) ts) (hss : writableStmts ss) :
    ∃ ts, Spells strict (.stmts ss) ts := by
  induction ss with
  | nil => exact ⟨[], .stmtsNil⟩
  | cons s ss ih =>
    rw [writableStmts] at hss
    obtain ⟨ts, hts⟩ := h s List.mem_cons_self hss.1
    obtain ⟨us, hus⟩ := ih (fun s' hs' => h s' (List.mem_cons_of_mem _ hs')) hss.2
    exact ⟨_, .stmtsCons (.inr rfl) (by simp) hts hus⟩

/-- An integer that is not negative has a spelling: its decimal digits. -/
lemma exists_spells_int {strict : Bool} {n : Int64} (h : 0 ≤ n.toInt) :
    ∃ ts, Spells strict (.expr (.int n)) ts := by
  have hdigits : IsDigits (String.ofList (Nat.toDigits 10 n.toInt.toNat)) := by
    refine ⟨by simp [Nat.toDigits_ne_nil], fun c hc => ?_⟩
    rw [String.toList_ofList] at hc
    exact Nat.isDigit_of_mem_toDigits (by decide) (by decide) hc
  refine ⟨_, .int hdigits ?_⟩
  rw [String.toList_ofList, Nat.ofDigitChars_ten_toDigits, Int.toNat_of_nonneg h]

/-- Every expression and every statement that can be spelled has a spelling. -/
lemma exists_spells (strict : Bool) :
    (∀ e : Expr, e.Writable → ∃ ts, Spells strict (.expr e) ts) ∧
      ∀ s : Stmt, s.Writable → ∃ ts, Spells strict (.stmt s) ts := by
  apply Expr.induction
  case ident => exact fun name h => ⟨_, .ident h⟩
  case int => exact fun n h => exists_spells_int h
  case bool => exact fun b _ => ⟨_, .bool b⟩
  case str => exact fun text h => ⟨_, .str h⟩
  case unary =>
    intro op e ih h
    obtain ⟨ts, hts⟩ := ih h
    exact ⟨_, .unary (hts.placed _)⟩
  case binary =>
    intro op l r ihl ihr h
    rw [Expr.Writable] at h
    obtain ⟨ls, hls⟩ := ihl h.1
    obtain ⟨rs, hrs⟩ := ihr h.2
    exact ⟨_, .binary (hls.placed _) (hrs.placed _)⟩
  case cond =>
    intro c yes no ihc ihyes ihno h
    cases no with
    | none =>
      rw [Expr.Writable] at h
      obtain ⟨cs, hcs⟩ := ihc h.1
      obtain ⟨ys, hys⟩ := exists_spells_stmts ihyes h.2
      exact ⟨_, .cond (hcs.placed _) hys⟩
    | some no =>
      rw [Expr.Writable] at h
      obtain ⟨cs, hcs⟩ := ihc h.1
      obtain ⟨ys, hys⟩ := exists_spells_stmts ihyes h.2.1
      obtain ⟨ns, hns⟩ := exists_spells_stmts (ihno no rfl) h.2.2
      exact ⟨_, .condElse (hcs.placed _) hys hns⟩
  case fnLit =>
    intro params body ih h
    rw [Expr.Writable] at h
    obtain ⟨bs, hbs⟩ := exists_spells_stmts ih h.2
    exact ⟨_, .fnLit h.1 hbs⟩
  case call =>
    intro f args ihf ihargs h
    rw [Expr.Writable] at h
    obtain ⟨fs, hfs⟩ := ihf h.1
    obtain ⟨as, has⟩ := exists_spells_exprs ihargs h.2
    exact ⟨_, .call (hfs.placed _) has⟩
  case array =>
    intro items ih h
    rw [Expr.Writable] at h
    obtain ⟨ts, hts⟩ := exists_spells_exprs ih h
    exact ⟨_, .array hts⟩
  case hash =>
    intro pairs ih h
    rw [Expr.Writable] at h
    obtain ⟨ts, hts⟩ := exists_spells_entries ih h
    exact ⟨_, .hash hts⟩
  case index =>
    intro base position ihb ihp h
    rw [Expr.Writable] at h
    obtain ⟨bs, hbs⟩ := ihb h.1
    obtain ⟨is, his⟩ := ihp h.2
    exact ⟨_, .index (hbs.placed _) (his.placed _)⟩
  case macroLit =>
    intro params body ih h
    rw [Expr.Writable] at h
    obtain ⟨bs, hbs⟩ := exists_spells_stmts ih h.2
    exact ⟨_, .macroLit h.1 hbs⟩
  case letBind =>
    intro name e ih h
    rw [Stmt.Writable] at h
    obtain ⟨ts, hts⟩ := ih h.2
    exact ⟨_, .letBind h.1 (hts.placed _)⟩
  case ret =>
    intro value ih h
    cases value with
    | none => exact ⟨_, .retNone⟩
    | some e =>
      rw [Stmt.Writable] at h
      obtain ⟨ts, hts⟩ := ih e rfl h
      exact ⟨_, .ret (hts.placed _)⟩
  case expr =>
    intro e ih h
    rw [Stmt.Writable] at h
    obtain ⟨ts, hts⟩ := ih h
    exact ⟨_, .exprStmt (hts.placed _)⟩

/-- **Every writable program has a text**: a spelling with a space after each lexeme. -/
theorem Program.exists_isText {program : Program} (h : program.Writable) :
    ∃ source, program.IsText source := by
  obtain ⟨ts, hts⟩ := exists_spells_stmts (fun s _ => (exists_spells true).2 s) h
  refine ⟨String.ofList (spaced ts), ts, hts, ?_⟩
  rw [String.toList_ofList]
  exact layout_spaced ts

end QuoteLang
