import QuoteLang.Expr.Equality
import QuoteLang.Proofs.Spelling

set_option relaxedAutoImplicit false
set_option autoImplicit false

/-!
# What the grammar reads is a spelling

Where a rule of the grammar reads a phrase from lexemes that can be met in a text, it has read a
spelling of that phrase, and it has left the rest. So a text that is read as a program is, up to its
blanks, a spelling of the program.

## Main definitions

* `nextRank` — how tightly the next lexeme binds.
* `SpellsUpTo` — a list of lexemes spells an expression wherever one as tight as that may stand.
* `Grammar.Sound` — the rules for expressions read spellings.

## Main results

* `Grammar.sound` — all rules for expressions read spellings.
* `parse_sound` — a text that is read as a program spells it.
-/

namespace QuoteLang

/-! ## Lexemes that leave no choice -/

/-- A written lexeme whose kind leaves no choice is the one of that kind. -/
lemma Lexeme.eq_lexeme {kind : TokenKind} {literal : String}
    (h : Lexeme.IsWritten ⟨kind, literal⟩) (hkind : kind.text ≠ "") :
    (⟨kind, literal⟩ : Lexeme) = kind.lexeme := by
  cases kind
  case illegal | eof | ident | int | string => exact absurd rfl hkind
  all_goals exact congrArg (Lexeme.mk _) h

/-- All lexemes of a list are written. -/
def AllWritten (ts : List Lexeme) : Prop :=
  ∀ t ∈ ts, t.IsWritten

/-- What is left of written lexemes is written. -/
lemma AllWritten.right {ts us : List Lexeme} (h : AllWritten (ts ++ us)) : AllWritten us :=
  fun t ht => h t (List.mem_append_right _ ht)

/-- What is left of written lexemes is written. -/
lemma AllWritten.tail {t : Lexeme} {ts : List Lexeme} (h : AllWritten (t :: ts)) :
    AllWritten ts :=
  fun u hu => h u (List.mem_cons_of_mem _ hu)

/-- Where no end is written, the next kind is that of the end only at the end. -/
lemma AllWritten.eq_nil {ts : List Lexeme} (h : AllWritten ts)
    (heof : (ts.headD .eof).kind = .eof) : ts = [] := by
  cases ts with
  | nil => rfl
  | cons t us =>
    have ht : t.IsWritten := h t List.mem_cons_self
    rw [List.headD_cons] at heof
    rw [Lexeme.IsWritten, heof] at ht
    exact ht.elim

/-- The integer that a run of digits stands for has the value of the digits. -/
lemma intLiteral?_eq_some {digits : String} {n : Int64} (h : intLiteral? digits = some n) :
    n.toInt = Nat.ofDigitChars 10 digits.toList 0 := by
  simp only [intLiteral?, Option.ite_none_right_eq_some, Option.some.injEq] at h
  obtain ⟨hlt, rfl⟩ := h
  exact Int64.toInt_ofNat_of_lt hlt

namespace Grammar

open Rule

/-! ## Rules without expressions -/

section

variable {ts rest : List Lexeme}

/-- A kind that leaves no choice is read as its lexeme. -/
lemma expect_sound {kind : TokenKind} {literal : String} (hts : AllWritten ts)
    (h : expect kind ts = .ok literal rest) (hkind : kind.text ≠ "") :
    ts = kind.lexeme :: rest ∧ AllWritten rest := by
  obtain rfl := expect_eq_ok.mp h
  rw [Lexeme.eq_lexeme (hts _ List.mem_cons_self) hkind]
  exact ⟨rfl, hts.tail⟩

/-- A name is read as its lexeme. -/
lemma expect_ident_sound {name : String} (hts : AllWritten ts)
    (h : expect .ident ts = .ok name rest) :
    ts = nameLexeme name :: rest ∧ IsName name ∧ AllWritten rest := by
  obtain rfl := expect_eq_ok.mp h
  exact ⟨rfl, hts _ List.mem_cons_self, hts.tail⟩

/-- An optional lexeme that comes next is read. -/
lemma skipOptional_next {kind : TokenKind} {u : Unit} (hts : AllWritten ts)
    (h : skipOptional kind ts = .ok u rest) (hnext : (ts.headD .eof).kind = kind)
    (hkind : kind.text ≠ "") : ts = kind.lexeme :: rest := by
  subst hnext
  cases ts with
  | nil => exact absurd rfl hkind
  | cons t us =>
    rw [List.headD_cons, skipOptional_cons] at h
    cases h
    exact congrArg (· :: rest) (Lexeme.eq_lexeme (hts _ List.mem_cons_self) hkind)

/-- An optional lexeme is read or left out. -/
lemma skipOptional_sound {kind : TokenKind} {u : Unit} (hts : AllWritten ts)
    (h : skipOptional kind ts = .ok u rest) (hkind : kind.text ≠ "") :
    ∃ sep, IsOptional kind sep ∧ ts = sep ++ rest := by
  by_cases hnext : (ts.headD .eof).kind = kind
  · obtain rfl := skipOptional_next hts h hnext hkind
    exact ⟨_, .inr rfl, rfl⟩
  · rw [skipOptional_of_ne hnext] at h
    cases h
    exact ⟨[], .inl rfl, rfl⟩

/-- Names are read with the commas between them and the parenthesis after them. -/
lemma names_sound {n : Nat} {ns : List String} (hts : AllWritten ts)
    (h : names n ts = .ok ns rest) :
    ns ≠ [] ∧ (∀ name ∈ ns, IsName name) ∧
      ts = spellNames ns ++ TokenKind.rparen.lexeme :: rest ∧ AllWritten rest := by
  induction n generalizing ts ns with
  | zero => cases h
  | succ n ih =>
    rw [names, bind_eq_ok] at h
    obtain ⟨name, ts₁, hname, h⟩ := h
    obtain ⟨rfl, hisname, hts₁⟩ := expect_ident_sound hts hname
    rw [peek_bind] at h
    split at h
    · rw [bind_eq_ok] at h
      obtain ⟨_, ts₂, hcomma, h⟩ := h
      obtain ⟨rfl, hts₂⟩ := expect_sound hts₁ hcomma (by decide)
      rw [bind_eq_ok] at h
      obtain ⟨others, ts₃, hothers, h⟩ := h
      cases h
      obtain ⟨hne, hnames, rfl, hrest⟩ := ih hts₂ hothers
      obtain ⟨other, others, rfl⟩ := List.exists_cons_of_ne_nil hne
      exact ⟨by simp, List.forall_mem_cons.mpr ⟨hisname, hnames⟩, rfl, hrest⟩
    · rw [bind_eq_ok] at h
      obtain ⟨_, ts₂, hparen, h⟩ := h
      obtain ⟨rfl, hts₂⟩ := expect_sound hts₁ hparen (by decide)
      cases h
      exact ⟨by simp, by simpa using hisname, rfl, hts₂⟩

/-- Parameters are read with the parentheses around them. -/
lemma params_sound {n : Nat} {ns : List String} (hts : AllWritten ts)
    (h : params n ts = .ok ns rest) :
    (∀ name ∈ ns, IsName name) ∧ ts = inParens (spellNames ns) ++ rest ∧ AllWritten rest := by
  rw [params, bind_eq_ok] at h
  obtain ⟨_, ts₁, hopen, h⟩ := h
  obtain ⟨rfl, hts₁⟩ := expect_sound hts hopen (by decide)
  rw [peek_bind] at h
  split at h
  · rw [bind_eq_ok] at h
    obtain ⟨_, ts₂, hclose, h⟩ := h
    obtain ⟨rfl, hts₂⟩ := expect_sound hts₁ hclose (by decide)
    cases h
    exact ⟨by simp, rfl, hts₂⟩
  · obtain ⟨-, hnames, rfl, hrest⟩ := names_sound hts₁ h
    exact ⟨hnames, by simp [inParens], hrest⟩

end

/-! ## Rules with expressions -/

/-- How tightly the next lexeme binds. -/
def nextRank (ts : List Lexeme) : Nat :=
  (Level.ofKind (ts.headD .eof).kind).rank

/-- A list of lexemes spells an expression in every place that demands no more than a rank. -/
def SpellsUpTo (rank : Nat) (e : Expr) (ts : List Lexeme) : Prop :=
  ∀ p : Place, p.least ≤ rank → Spells false (.placed p e) ts

/-- What is spelled without parentheses may stand where its operator binds tightly enough. -/
lemma SpellsUpTo.of_spells {e : Expr} {ts : List Lexeme} (h : Spells false (.expr e) ts) :
    SpellsUpTo e.level.rank e ts :=
  fun _ hp => .bare hp h

/-- The rank that a rule for expressions of a level leaves to the expressions it reads. Signs may
follow one another, so behind a sign it is that of a sign. -/
def leastAt (level : Level) : Nat :=
  min (level.rank + 1) Level.unary.rank

/-- From lexemes an expression was read: a spelling of it that may stand wherever no more than
`least` is demanded, and behind which nothing follows that binds more tightly than `bound` or than
the expression itself. -/
def ReadsExpr (least bound : Nat) (e : Expr) (ts rest : List Lexeme) : Prop :=
  ∃ us rank, ts = us ++ rest ∧ SpellsUpTo rank e us ∧ least ≤ rank ∧ nextRank rest ≤ rank ∧
    nextRank rest ≤ bound

/-- From lexemes a phrase was read with the closing token behind it. -/
def ReadsUpTo (stop : TokenKind) (ph : Phrase) (ts rest : List Lexeme) : Prop :=
  ∃ us, ts = us ++ stop.lexeme :: rest ∧ Spells false ph us

/-- Nothing binds more tightly than an index. -/
lemma nextRank_le (ts : List Lexeme) : nextRank ts ≤ Level.index.rank := by
  unfold nextRank
  cases Level.ofKind (ts.headD .eof).kind <;> decide

/-- An expression that binds as tightly as an index was read, whatever follows. -/
lemma ReadsExpr.of_spells {bound least : Nat} {e : Expr} {us rest : List Lexeme}
    (h : Spells false (.expr e) us) (hlevel : e.level = .index) (hbound : Level.index.rank ≤ bound)
    (hleast : least ≤ Level.index.rank) : ReadsExpr least bound e (us ++ rest) rest := by
  have hrank := SpellsUpTo.of_spells h
  rw [hlevel] at hrank
  have hnext := nextRank_le rest
  exact ⟨us, Level.index.rank, rfl, hrank, hleast, hnext, by omega⟩

/-- What a rule reads for an expression stands wherever no more is demanded. -/
lemma ReadsExpr.placed {least bound : Nat} {e : Expr} {ts rest : List Lexeme}
    (h : ReadsExpr least bound e ts rest) (p : Place) (hp : p.least ≤ least) :
    ∃ us, ts = us ++ rest ∧ Spells false (.placed p e) us := by
  obtain ⟨us, rank, rfl, hus, hleast, -, -⟩ := h
  exact ⟨us, rfl, hus p (by omega)⟩

/-- The rules for expressions read spellings, with `n` units of their budget. -/
structure Sound (n : Nat) : Prop where
  /-- An operand is at least as tight as a sign. -/
  operand {ts rest : List Lexeme} {e : Expr} (hts : AllWritten ts)
    (h : operand n ts = .ok e rest) : ReadsExpr Level.unary.rank Level.index.rank e ts rest
  /-- What follows an expression goes on with its spelling. -/
  continuation {level : Level} {ts us rest : List Lexeme} {left e : Expr} {rank : Nat}
    (hts : AllWritten ts) (hus : SpellsUpTo rank left us) (hleast : leastAt level ≤ rank)
    (hnext : nextRank ts ≤ rank) (h : continuation n level left ts = .ok e rest) :
    ReadsExpr (leastAt level) level.rank e (us ++ ts) rest
  /-- An expression is as tight as its level demands, and nothing tighter than the level follows. -/
  expression {level : Level} {ts rest : List Lexeme} {e : Expr} (hts : AllWritten ts)
    (h : expression n level ts = .ok e rest) : ReadsExpr (leastAt level) level.rank e ts rest
  /-- The members of a list are read with what closes it. -/
  items {stop : TokenKind} {ts rest : List Lexeme} {es : List Expr} (hstop : stop.text ≠ "")
    (hts : AllWritten ts) (h : items n stop ts = .ok es rest) :
    es ≠ [] ∧ ReadsUpTo stop (.exprs es) ts rest
  /-- A list is read with what closes it. -/
  list {stop : TokenKind} {ts rest : List Lexeme} {es : List Expr} (hstop : stop.text ≠ "")
    (hts : AllWritten ts) (h : list n stop ts = .ok es rest) : ReadsUpTo stop (.exprs es) ts rest
  /-- The entries of a hash are read with the brace behind them. -/
  entries {ts rest : List Lexeme} {pairs : List (Expr × Expr)} (hts : AllWritten ts)
    (h : entries n ts = .ok pairs rest) : ReadsUpTo .rbrace (.entries pairs) ts rest
  /-- The statements of a block are read with the brace behind them. -/
  block {ts rest : List Lexeme} {ss : List Stmt} (hts : AllWritten ts)
    (h : statements n .rbrace ts = .ok ss rest) : ReadsUpTo .rbrace (.stmts ss) ts rest
  /-- The statements of a program are all that there is. -/
  program {ts rest : List Lexeme} {ss : List Stmt} (hts : AllWritten ts)
    (h : statements n .eof ts = .ok ss rest) : Spells false (.stmts ss) ts

/-- A statement is read with its semicolon, if there is one. -/
lemma statementWith_sound {expression : Rule Expr} {ts rest : List Lexeme} {s : Stmt}
    (hexpr : ∀ {ts rest : List Lexeme} {e : Expr}, AllWritten ts → expression ts = .ok e rest →
      ∃ us, ts = us ++ rest ∧ Spells false (.placed .free e) us)
    (hts : AllWritten ts) (h : statementWith expression ts = .ok s rest) :
    ∃ us sep, ts = us ++ sep ++ rest ∧ IsOptional .semicolon sep ∧ Spells false (.stmt s) us := by
  rw [statementWith, peek_bind] at h
  generalize (ts.headD .eof).kind = kind at h
  cases kind
  case kwLet =>
    rw [bind_eq_ok] at h
    obtain ⟨_, ts₁, hlet, h⟩ := h
    obtain ⟨rfl, hts₁⟩ := expect_sound hts hlet (by decide)
    rw [bind_eq_ok] at h
    obtain ⟨name, ts₂, hname, h⟩ := h
    obtain ⟨rfl, hisname, hts₂⟩ := expect_ident_sound hts₁ hname
    rw [bind_eq_ok] at h
    obtain ⟨_, ts₃, hassign, h⟩ := h
    obtain ⟨rfl, hts₃⟩ := expect_sound hts₂ hassign (by decide)
    rw [bind_eq_ok] at h
    obtain ⟨e, ts₄, he, h⟩ := h
    obtain ⟨us, rfl, hus⟩ := hexpr hts₃ he
    rw [bind_eq_ok] at h
    obtain ⟨_, ts₅, hsemi, h⟩ := h
    obtain ⟨sep, hsep, rfl⟩ := skipOptional_sound hts₃.right hsemi (by decide)
    cases h
    exact ⟨_, sep, by simp, hsep, .letBind hisname hus⟩
  case kwReturn =>
    rw [bind_eq_ok] at h
    obtain ⟨_, ts₁, hreturn, h⟩ := h
    obtain ⟨rfl, hts₁⟩ := expect_sound hts hreturn (by decide)
    rw [peek_bind] at h
    split at h
    · rw [bind_eq_ok] at h
      obtain ⟨_, ts₂, hsemi, h⟩ := h
      obtain ⟨sep, hsep, rfl⟩ := skipOptional_sound hts₁ hsemi (by decide)
      cases h
      exact ⟨_, sep, by simp, hsep, .retNone⟩
    · rw [bind_eq_ok] at h
      obtain ⟨e, ts₂, he, h⟩ := h
      obtain ⟨us, rfl, hus⟩ := hexpr hts₁ he
      rw [bind_eq_ok] at h
      obtain ⟨_, ts₃, hsemi, h⟩ := h
      obtain ⟨sep, hsep, rfl⟩ := skipOptional_sound hts₁.right hsemi (by decide)
      cases h
      exact ⟨_, sep, by simp, hsep, .ret hus⟩
  all_goals
    rw [bind_eq_ok] at h
    obtain ⟨e, ts₁, he, h⟩ := h
    obtain ⟨us, rfl, hus⟩ := hexpr hts he
    rw [bind_eq_ok] at h
    obtain ⟨_, ts₂, hsemi, h⟩ := h
    obtain ⟨sep, hsep, rfl⟩ := skipOptional_sound hts.right hsemi (by decide)
    cases h
    exact ⟨us, sep, by simp, hsep, .exprStmt hus⟩

/-- An integer is read as its digits. -/
lemma integer_sound {ts rest : List Lexeme} {e : Expr} (hts : AllWritten ts)
    (h : integer ts = .ok e rest) :
    ∃ t, ts = t :: rest ∧ Spells false (.expr e) [t] ∧ e.level = .index := by
  rw [integer, peek_bind] at h
  cases hn : intLiteral? (ts.headD .eof).literal with
  | none =>
    rw [hn] at h
    cases h
  | some n =>
    rw [hn] at h
    rw [bind_eq_ok] at h
    obtain ⟨digits, ts₁, hdigits, h⟩ := h
    obtain rfl := expect_eq_ok.mp hdigits
    cases h
    exact ⟨_, rfl, .int (hts _ List.mem_cons_self) (intLiteral?_eq_some hn), rfl⟩

/-- At a closing brace no entries are left. -/
lemma entries_eq_nil {n : Nat} {ts rest : List Lexeme} {pairs : List (Expr × Expr)}
    (hnext : (ts.headD .eof).kind = .rbrace) (h : entries n ts = .ok pairs rest) : pairs = [] := by
  cases n with
  | zero => cases h
  | succ n =>
    rw [entries, peek_bind, if_pos hnext, bind_eq_ok] at h
    obtain ⟨_, ts₁, -, h⟩ := h
    cases h
    rfl

section

variable {n : Nat} (ih : Sound n) {ts rest : List Lexeme}

include ih

/-- An expression behind which anything may follow is read with its place. -/
lemma free_sound {e : Expr} (hts : AllWritten ts) (h : expression n .lowest ts = .ok e rest) :
    ∃ us, ts = us ++ rest ∧ Spells false (.placed .free e) us :=
  (ih.expression hts h).placed .free (Nat.zero_le _)

/-- A literal of functions or macros is read as its parameters and its body. -/
lemma literal_sound {build : List String → List Stmt → Expr} {e : Expr} (hts : AllWritten ts)
    (h : (params n >>= fun names => expect .lbrace >>= fun _ => statements n .rbrace >>= fun body =>
      (Pure.pure (build names body) : Rule Expr)) ts = .ok e rest) :
    ∃ names body bs, e = build names body ∧
      ts = inParens (spellNames names) ++ inBraces bs ++ rest ∧
      (∀ name ∈ names, IsName name) ∧ Spells false (.stmts body) bs := by
  rw [bind_eq_ok] at h
  obtain ⟨names, ts₁, hparams, h⟩ := h
  obtain ⟨hnames, rfl, hts₁⟩ := params_sound hts hparams
  rw [bind_eq_ok] at h
  obtain ⟨_, ts₂, hopen, h⟩ := h
  obtain ⟨rfl, hts₂⟩ := expect_sound hts₁ hopen (by decide)
  rw [bind_eq_ok] at h
  obtain ⟨body, ts₃, hbody, h⟩ := h
  obtain ⟨bs, rfl, hbs⟩ := ih.block hts₂ hbody
  cases h
  exact ⟨names, body, bs, rfl, by simp [inBraces], hnames, hbs⟩

/-- A sign is read with its operand, behind which nothing tighter than a sign follows. -/
lemma sign_sound {op : UnaryOp} {e : Expr} (hts : AllWritten ts)
    (h : (expression n .unary >>= fun e => (Pure.pure (.unary op e) : Rule Expr)) ts = .ok e rest) :
    ReadsExpr Level.unary.rank Level.index.rank e (op.kind.lexeme :: ts) rest := by
  rw [bind_eq_ok] at h
  obtain ⟨e', ts₁, he, h⟩ := h
  obtain ⟨us, rank, rfl, hus, hleast, -, hbound⟩ := ih.expression hts he
  cases h
  have hspells : Spells false (.expr (.unary op e')) (op.kind.lexeme :: us) :=
    .unary (hus .operand hleast)
  exact ⟨op.kind.lexeme :: us, _, rfl, .of_spells hspells, Nat.le_refl _, hbound, nextRank_le _⟩

/-- Behind `if`, a choice is read. -/
lemma choice_sound {e : Expr} (hts : AllWritten ts)
    (h : (do
      let _ ← expect .lparen
      let test ← expression n .lowest
      let _ ← expect .rparen
      let _ ← expect .lbrace
      let yes ← statements n .rbrace
      let next ← peek
      if next.kind = .kwElse then do
        let _ ← expect .kwElse
        let _ ← expect .lbrace
        let no ← statements n .rbrace
        return .cond test yes (some no)
      else return .cond test yes none : Rule Expr) ts = .ok e rest) :
    ∃ us, TokenKind.kwIf.lexeme :: ts = us ++ rest ∧ Spells false (.expr e) us ∧
      e.level = .index := by
  rw [bind_eq_ok] at h
  obtain ⟨_, ts₁, hopen, h⟩ := h
  obtain ⟨rfl, hts₁⟩ := expect_sound hts hopen (by decide)
  rw [bind_eq_ok] at h
  obtain ⟨test, ts₂, htest, h⟩ := h
  obtain ⟨cs, rfl, hcs⟩ := free_sound ih hts₁ htest
  rw [bind_eq_ok] at h
  obtain ⟨_, ts₃, hclose, h⟩ := h
  obtain ⟨rfl, hts₃⟩ := expect_sound hts₁.right hclose (by decide)
  rw [bind_eq_ok] at h
  obtain ⟨_, ts₄, hbrace, h⟩ := h
  obtain ⟨rfl, hts₄⟩ := expect_sound hts₃ hbrace (by decide)
  rw [bind_eq_ok] at h
  obtain ⟨yes, ts₅, hyes, h⟩ := h
  obtain ⟨ys, rfl, hys⟩ := ih.block hts₄ hyes
  have hts₅ : AllWritten ts₅ := hts₄.right.tail
  rw [peek_bind] at h
  split at h
  · rw [bind_eq_ok] at h
    obtain ⟨_, ts₆, helse, h⟩ := h
    obtain ⟨rfl, hts₆⟩ := expect_sound hts₅ helse (by decide)
    rw [bind_eq_ok] at h
    obtain ⟨_, ts₇, hbrace', h⟩ := h
    obtain ⟨rfl, hts₇⟩ := expect_sound hts₆ hbrace' (by decide)
    rw [bind_eq_ok] at h
    obtain ⟨no, ts₈, hno, h⟩ := h
    obtain ⟨ns, rfl, hns⟩ := ih.block hts₇ hno
    cases h
    exact ⟨_, by simp [inParens, inBraces], .condElse hcs hys hns, rfl⟩
  · cases h
    exact ⟨_, by simp [inParens, inBraces], .cond hcs hys, rfl⟩

/-- An operand is read, with one unit more. -/
lemma operand_sound {e : Expr} (hts : AllWritten ts) (h : operand (n + 1) ts = .ok e rest) :
    ReadsExpr Level.unary.rank Level.index.rank e ts rest := by
  have tight {us : List Lexeme} {e : Expr} (hus : Spells false (.expr e) us)
      (hlevel : e.level = .index) :
      ReadsExpr Level.unary.rank Level.index.rank e (us ++ rest) rest :=
    .of_spells hus hlevel (Nat.le_refl _) (by decide)
  rw [operand, peek_bind] at h
  generalize (ts.headD .eof).kind = kind at h
  cases kind
  case ident =>
    rw [bind_eq_ok] at h
    obtain ⟨name, ts₁, hname, h⟩ := h
    obtain ⟨rfl, hisname, -⟩ := expect_ident_sound hts hname
    cases h
    exact tight (.ident hisname) rfl
  case int =>
    obtain ⟨t, rfl, ht, hlevel⟩ := integer_sound hts h
    exact tight ht hlevel
  case string =>
    rw [bind_eq_ok] at h
    obtain ⟨text, ts₁, htext, h⟩ := h
    obtain rfl := expect_eq_ok.mp htext
    cases h
    exact tight (.str (hts _ List.mem_cons_self)) rfl
  case kwTrue =>
    rw [bind_eq_ok] at h
    obtain ⟨_, ts₁, htrue, h⟩ := h
    obtain ⟨rfl, -⟩ := expect_sound hts htrue (by decide)
    cases h
    exact tight (.bool true) rfl
  case kwFalse =>
    rw [bind_eq_ok] at h
    obtain ⟨_, ts₁, hfalse, h⟩ := h
    obtain ⟨rfl, -⟩ := expect_sound hts hfalse (by decide)
    cases h
    exact tight (.bool false) rfl
  case bang =>
    rw [bind_eq_ok] at h
    obtain ⟨_, ts₁, hbang, h⟩ := h
    obtain ⟨rfl, hts₁⟩ := expect_sound hts hbang (by decide)
    exact sign_sound ih hts₁ h
  case minus =>
    rw [bind_eq_ok] at h
    obtain ⟨_, ts₁, hminus, h⟩ := h
    obtain ⟨rfl, hts₁⟩ := expect_sound hts hminus (by decide)
    exact sign_sound ih hts₁ h
  case lparen =>
    rw [bind_eq_ok] at h
    obtain ⟨_, ts₁, hopen, h⟩ := h
    obtain ⟨rfl, hts₁⟩ := expect_sound hts hopen (by decide)
    rw [bind_eq_ok] at h
    obtain ⟨e', ts₂, he, h⟩ := h
    obtain ⟨us, rank, rfl, hus, -⟩ := ih.expression hts₁ he
    rw [bind_eq_ok] at h
    obtain ⟨_, ts₃, hclose, h⟩ := h
    obtain ⟨rfl, -⟩ := expect_sound hts₁.right hclose (by decide)
    cases h
    have hparens : SpellsUpTo Level.index.rank e (inParens us) := fun _ _ =>
      .paren (hus .free (Nat.zero_le _))
    exact ⟨inParens us, _, by simp [inParens], hparens, by decide, nextRank_le _, nextRank_le _⟩
  case kwIf =>
    rw [bind_eq_ok] at h
    obtain ⟨_, ts₁, hif, h⟩ := h
    obtain ⟨rfl, hts₁⟩ := expect_sound hts hif (by decide)
    obtain ⟨us, hus, hspells, hlevel⟩ := choice_sound ih hts₁ h
    rw [hus]
    exact tight hspells hlevel
  case kwFn =>
    rw [bind_eq_ok] at h
    obtain ⟨_, ts₁, hfn, h⟩ := h
    obtain ⟨rfl, hts₁⟩ := expect_sound hts hfn (by decide)
    obtain ⟨names, body, bs, rfl, rfl, hnames, hbs⟩ := literal_sound ih hts₁ h
    exact tight (.fnLit hnames hbs) rfl
  case kwMacro =>
    rw [bind_eq_ok] at h
    obtain ⟨_, ts₁, hmacro, h⟩ := h
    obtain ⟨rfl, hts₁⟩ := expect_sound hts hmacro (by decide)
    obtain ⟨names, body, bs, rfl, rfl, hnames, hbs⟩ := literal_sound ih hts₁ h
    exact tight (.macroLit hnames hbs) rfl
  case lbracket =>
    rw [bind_eq_ok] at h
    obtain ⟨_, ts₁, hopen, h⟩ := h
    obtain ⟨rfl, hts₁⟩ := expect_sound hts hopen (by decide)
    rw [bind_eq_ok] at h
    obtain ⟨items, ts₂, hitems, h⟩ := h
    obtain ⟨us, rfl, hus⟩ := ih.list (by decide) hts₁ hitems
    cases h
    simpa [inBrackets] using tight (.array hus) rfl
  case lbrace =>
    rw [bind_eq_ok] at h
    obtain ⟨_, ts₁, hopen, h⟩ := h
    obtain ⟨rfl, hts₁⟩ := expect_sound hts hopen (by decide)
    rw [bind_eq_ok] at h
    obtain ⟨pairs, ts₂, hpairs, h⟩ := h
    obtain ⟨us, rfl, hus⟩ := ih.entries hts₁ hpairs
    cases h
    simpa [inBraces] using tight (.hash hus) rfl
  all_goals cases h

/-- What follows an expression is read, with one unit more. -/
lemma continuation_sound {level : Level} {us : List Lexeme} {left e : Expr} {rank : Nat}
    (hts : AllWritten ts) (hus : SpellsUpTo rank left us) (hleast : leastAt level ≤ rank)
    (hnext : nextRank ts ≤ rank) (h : continuation (n + 1) level left ts = .ok e rest) :
    ReadsExpr (leastAt level) level.rank e (us ++ ts) rest := by
  rw [continuation, peek_bind] at h
  split at h
  case isFalse hlt =>
    cases h
    exact ⟨us, rank, rfl, hus, hleast, hnext, Nat.le_of_not_lt hlt⟩
  case isTrue hlt =>
    have hnext' : level.rank < nextRank ts := hlt
    rw [nextRank] at hnext hnext'
    generalize (ts.headD .eof).kind = kind at h hnext hnext'
    -- After a call or an indexing everything may follow.
    have tight {us' ts' : List Lexeme} {left' : Expr} (hts' : AllWritten ts')
        (hus' : Spells false (.expr left') us') (hlevel : left'.level = .index)
        (h' : continuation n level left' ts' = .ok e rest) :
        ReadsExpr (leastAt level) level.rank e (us' ++ ts') rest := by
      have hrank := SpellsUpTo.of_spells hus'
      rw [hlevel] at hrank
      refine ih.continuation hts' hrank ?_ (nextRank_le _) h'
      exact Nat.le_trans (Nat.min_le_right _ _) (by decide)
    -- An operator groups what has been read with its right operand.
    have operator (op : BinaryOp) (hkind : kind = op.kind)
        (h' : (expect kind >>= fun _ => expression n (Level.ofKind kind) >>= fun right =>
          continuation n level (.binary op left right)) ts = .ok e rest) :
        ReadsExpr (leastAt level) level.rank e (us ++ ts) rest := by
      subst hkind
      rw [BinaryOp.ofKind_level] at h' hnext hnext'
      have hop := op.rank_level_bounds
      rw [bind_eq_ok] at h'
      obtain ⟨_, ts₁, hop', h'⟩ := h'
      obtain ⟨rfl, hts₁⟩ := expect_sound hts hop' (by cases op <;> decide)
      rw [bind_eq_ok] at h'
      obtain ⟨right, ts₂, hright, h'⟩ := h'
      obtain ⟨vs, rank', rfl, hvs, hleast', hnext₂, hbound₂⟩ := ih.expression hts₁ hright
      have hunary : Level.unary.rank = 5 := rfl
      have hr : (Place.rightOf op).least ≤ rank' := by
        rw [leastAt] at hleast'
        change op.level.rank + 1 ≤ rank'
        omega
      have hspells := Spells.binary (hus (.leftOf op) hnext) (hvs (.rightOf op) hr)
      have hread := ih.continuation hts₁.right (SpellsUpTo.of_spells hspells)
        (by change leastAt level ≤ op.level.rank; rw [leastAt]; omega) hbound₂ h'
      simpa using hread
    cases kind
    case lparen =>
      rw [bind_eq_ok] at h
      obtain ⟨_, ts₁, hopen, h⟩ := h
      obtain ⟨rfl, hts₁⟩ := expect_sound hts hopen (by decide)
      rw [bind_eq_ok] at h
      obtain ⟨args, ts₂, hargs, h⟩ := h
      obtain ⟨vs, rfl, hvs⟩ := ih.list (by decide) hts₁ hargs
      have hread := tight hts₁.right.tail (.call (hus .callee hnext) hvs) rfl h
      simpa [inParens] using hread
    case lbracket =>
      rw [bind_eq_ok] at h
      obtain ⟨_, ts₁, hopen, h⟩ := h
      obtain ⟨rfl, hts₁⟩ := expect_sound hts hopen (by decide)
      rw [bind_eq_ok] at h
      obtain ⟨position, ts₂, hposition, h⟩ := h
      obtain ⟨vs, rfl, hvs⟩ := free_sound ih hts₁ hposition
      rw [bind_eq_ok] at h
      obtain ⟨_, ts₃, hclose, h⟩ := h
      obtain ⟨rfl, hts₃⟩ := expect_sound hts₁.right hclose (by decide)
      have hread := tight hts₃ (.index (hus .base hnext) hvs) rfl h
      simpa [inBrackets] using hread
    case plus => exact operator .add rfl h
    case minus => exact operator .sub rfl h
    case asterisk => exact operator .mul rfl h
    case slash => exact operator .div rfl h
    case lt => exact operator .lt rfl h
    case gt => exact operator .gt rfl h
    case eq => exact operator .eq rfl h
    case notEq => exact operator .ne rfl h
    all_goals exact absurd hnext' (Nat.not_lt_zero _)

/-- An expression is read, with one unit more. -/
lemma expression_sound {level : Level} {e : Expr} (hts : AllWritten ts)
    (h : expression (n + 1) level ts = .ok e rest) :
    ReadsExpr (leastAt level) level.rank e ts rest := by
  rw [expression, bind_eq_ok] at h
  obtain ⟨left, ts₁, hleft, h⟩ := h
  obtain ⟨us, rank, rfl, hus, hleast, hnext, -⟩ := ih.operand hts hleft
  exact ih.continuation hts.right hus (Nat.le_trans (Nat.min_le_right _ _) hleast) hnext h

/-- The members of a list are read, with one unit more. -/
lemma items_sound {stop : TokenKind} {es : List Expr} (hstop : stop.text ≠ "")
    (hts : AllWritten ts) (h : items (n + 1) stop ts = .ok es rest) :
    es ≠ [] ∧ ReadsUpTo stop (.exprs es) ts rest := by
  rw [items, bind_eq_ok] at h
  obtain ⟨e, ts₁, he, h⟩ := h
  obtain ⟨us, rfl, hus⟩ := free_sound ih hts he
  rw [peek_bind] at h
  split at h
  · rw [bind_eq_ok] at h
    obtain ⟨_, ts₂, hcomma, h⟩ := h
    obtain ⟨rfl, hts₂⟩ := expect_sound hts.right hcomma (by decide)
    rw [bind_eq_ok] at h
    obtain ⟨others, ts₃, hothers, h⟩ := h
    obtain ⟨hne, vs, rfl, hvs⟩ := ih.items hstop hts₂ hothers
    cases h
    exact ⟨by simp, _, by simp, .exprsCons (.inr rfl) (by simp [hne]) hus hvs⟩
  · rw [bind_eq_ok] at h
    obtain ⟨_, ts₂, hclose, h⟩ := h
    obtain ⟨rfl, -⟩ := expect_sound hts.right hclose hstop
    cases h
    exact ⟨by simp, _, by simp, .exprsCons (.inl rfl) (by simp) hus .exprsNil⟩

/-- A list is read, with one unit more. -/
lemma list_sound {stop : TokenKind} {es : List Expr} (hstop : stop.text ≠ "")
    (hts : AllWritten ts) (h : list (n + 1) stop ts = .ok es rest) :
    ReadsUpTo stop (.exprs es) ts rest := by
  rw [list, peek_bind] at h
  split at h
  · rw [bind_eq_ok] at h
    obtain ⟨_, ts₁, hclose, h⟩ := h
    obtain ⟨rfl, -⟩ := expect_sound hts hclose hstop
    cases h
    exact ⟨[], rfl, .exprsNil⟩
  · exact (ih.items hstop hts h).2

/-- The entries of a hash are read, with one unit more. -/
lemma entries_sound {pairs : List (Expr × Expr)} (hts : AllWritten ts)
    (h : entries (n + 1) ts = .ok pairs rest) : ReadsUpTo .rbrace (.entries pairs) ts rest := by
  rw [entries, peek_bind] at h
  split at h
  · rw [bind_eq_ok] at h
    obtain ⟨_, ts₁, hclose, h⟩ := h
    obtain ⟨rfl, -⟩ := expect_sound hts hclose (by decide)
    cases h
    exact ⟨[], rfl, .entriesNil⟩
  · rw [bind_eq_ok] at h
    obtain ⟨key, ts₁, hkey, h⟩ := h
    obtain ⟨ks, rfl, hks⟩ := free_sound ih hts hkey
    rw [bind_eq_ok] at h
    obtain ⟨_, ts₂, hcolon, h⟩ := h
    obtain ⟨rfl, hts₂⟩ := expect_sound hts.right hcolon (by decide)
    rw [bind_eq_ok] at h
    obtain ⟨value, ts₃, hvalue, h⟩ := h
    obtain ⟨vs, rfl, hvs⟩ := free_sound ih hts₂ hvalue
    rw [peek_bind] at h
    split at h
    case isFalse => cases h
    case isTrue hstop =>
      rw [bind_eq_ok] at h
      obtain ⟨_, ts₄, hskip, h⟩ := h
      rw [bind_eq_ok] at h
      obtain ⟨others, ts₅, hothers, h⟩ := h
      cases h
      rcases hstop with hcomma | hbrace
      · obtain rfl := skipOptional_next hts₂.right hskip hcomma (by decide)
        obtain ⟨us, rfl, hus⟩ := ih.entries hts₂.right.tail hothers
        exact ⟨_, by simp, .entriesCons (.inr rfl) (by simp) hks hvs hus⟩
      · rw [skipOptional_of_ne (by rw [hbrace]; decide)] at hskip
        cases hskip
        obtain rfl := entries_eq_nil hbrace hothers
        obtain ⟨us, rfl, hus⟩ := ih.entries hts₂.right hothers
        exact ⟨_, by simp, .entriesCons (.inl rfl) (fun _ => rfl) hks hvs hus⟩

/-- The statements of a block are read, with one unit more. -/
lemma block_sound {ss : List Stmt} (hts : AllWritten ts)
    (h : statements (n + 1) .rbrace ts = .ok ss rest) : ReadsUpTo .rbrace (.stmts ss) ts rest := by
  rw [statements, peek_bind] at h
  split at h
  case isTrue hclose =>
    rw [bind_eq_ok] at h
    obtain ⟨_, ts₁, hskip, h⟩ := h
    obtain rfl := skipOptional_next hts hskip hclose (by decide)
    cases h
    exact ⟨[], rfl, .stmtsNil⟩
  case isFalse =>
    split at h
    case isTrue => cases h
    case isFalse =>
      rw [bind_eq_ok] at h
      obtain ⟨s, ts₁, hs, h⟩ := h
      obtain ⟨us, sep, rfl, hsep, hus⟩ := statementWith_sound (free_sound ih) hts hs
      rw [bind_eq_ok] at h
      obtain ⟨others, ts₂, hothers, h⟩ := h
      obtain ⟨vs, rfl, hvs⟩ := ih.block hts.right hothers
      cases h
      exact ⟨_, by simp, .stmtsCons hsep (by simp) hus hvs⟩

/-- The statements of a program are read, with one unit more. -/
lemma program_sound {ss : List Stmt} (hts : AllWritten ts)
    (h : statements (n + 1) .eof ts = .ok ss rest) : Spells false (.stmts ss) ts := by
  rw [statements, peek_bind] at h
  split at h
  case isTrue hend =>
    obtain rfl := hts.eq_nil hend
    cases h
    exact .stmtsNil
  case isFalse hend =>
    rw [bind_eq_ok] at h
    obtain ⟨s, ts₁, hs, h⟩ := h
    obtain ⟨us, sep, rfl, hsep, hus⟩ := statementWith_sound (free_sound ih) hts hs
    rw [bind_eq_ok] at h
    obtain ⟨others, ts₂, hothers, h⟩ := h
    have hvs := ih.program hts.right hothers
    cases h
    exact .stmtsCons hsep (by simp) hus hvs

end

/-- **All rules for expressions read spellings.**

**Proof sketch.** Induction on the budget. What an operator binds is decided by two invariants of
`continuation`: what has been read so far is at least as tight as what follows it, and what follows
the right operand of an operator is at most as tight as the operator. -/
theorem sound (n : Nat) : Sound n := by
  induction n with
  | zero => constructor <;> intros <;> contradiction
  | succ n ih =>
    exact {
      operand := operand_sound ih
      continuation := continuation_sound ih
      expression := expression_sound ih
      items := items_sound ih
      list := list_sound ih
      entries := entries_sound ih
      block := block_sound ih
      program := program_sound ih }

end Grammar

/-! ## Texts -/

/-- **A text that is read as a program spells it**: the lexemes of the text are a spelling of the
program, with no lexeme left out, repeated or moved. So the program is writable. -/
theorem parse_sound {source : String} {program : Program} (h : parse source = .ok program) :
    program.IsSpelling false (lexemes source) ∧ program.Writable := by
  rw [parse_eq_ok_iff, Program.ofLexemes] at h
  split at h
  case h_1 program' rest hread =>
    cases h
    have hspells := (Grammar.sound _).program (fun _ => Lexeme.isWritten_of_mem_lexemes) hread
    exact ⟨hspells, hspells.writable⟩
  case h_2 => cases h
  case h_3 hexhausted => exact absurd hexhausted (Grammar.statements_ne_exhausted _ _)

/-- A text with parentheses that are needed and parentheses that are not. -/
theorem parse_sound_difference :
    let program : Program := [.expr (.binary .sub (.ident "a")
      (.binary .mul (.binary .sub (.ident "b") (.int 1)) (.index (.array [.int 2]) (.int 0))))]
    parse "a - (b - (1)) * [2][0]" = .ok program ∧
      program.IsSpelling false (lexemes "a - (b - (1)) * [2][0]") ∧ program.Writable := by
  intro program
  have h : parse "a - (b - (1)) * [2][0]" = .ok program :=
    parse_eq_ok_of_toOption (by decide +kernel)
  exact ⟨h, parse_sound h⟩

end QuoteLang
