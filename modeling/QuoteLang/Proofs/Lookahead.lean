import QuoteLang.Proofs.Spelling.Complete

set_option relaxedAutoImplicit false
set_option autoImplicit false

/-!
# One lexeme of lookahead

What a rule answers depends on the lexemes that it reads and on the one after them, and on nothing
else. This is so for the elementary rules, and rules that are made of such rules are of this kind.

A relation between rules that is kept by their composition, and that holds of the elementary rules,
holds of all rules of the grammar. The grammar is walked through once, for any such relation.

## Main definitions

* `Rule.Congruence` — a relation between rules that their composition keeps.
* `Grammar.Related` — all rules are in a relation.
* `Grammar.unterminated` — the rule for a statement without its semicolon.
* `Rule.Local` — a rule that looks at no more than one lexeme behind those that it reads.
* `ParseCause.Blames` — a cause is about a lexeme.

## Main results

* `Grammar.related` — the rules of the grammar are in every relation that composition keeps.
* `Grammar.locals` — all rules look at one lexeme, and answer the same with a larger budget.
* `Grammar.blaming` — the cause of a failure is about the lexeme that the rule stopped at.
-/

namespace QuoteLang

/-! ## Causes -/

/-- A cause is **about** a lexeme: it names the kind of the lexeme, and not as one of those that may
stand in its place, or the lexeme is a run of digits that is too large. -/
def ParseCause.Blames (t : Lexeme) : ParseCause → Prop
  | unexpectedToken expected found => found = t.kind ∧ found ∉ expected
  | noExpression found => found = t.kind ∧ Grammar.startsExpr found = false
  | invalidInteger => t.kind = .int ∧ intLiteral? t.literal = none

/-! ## Relations that composition keeps -/

namespace Rule

/-- A relation between rules at a next lexeme is a **congruence** if it holds of the elementary
rules and is kept by composition. `X` says whether the relation holds of a rule that demands the end
of the text, and `Y` whether it holds of one that skips it. -/
structure Congruence (X Y : Prop) (P : (α : Type) → Lexeme → Rule α → Rule α → Prop) : Prop where
  /-- The rule that reads nothing. -/
  pure {α : Type} {t : Lexeme} (a : α) : P α t (Pure.pure a) (Pure.pure a)
  /-- A rule without a budget is related to every rule. -/
  outOfBudget {α : Type} {t : Lexeme} {q : Rule α} : P α t Rule.outOfBudget q
  /-- The rule that fails for a cause that is about the next lexeme. -/
  failHere {α : Type} {t : Lexeme} {cause : TokenKind → ParseCause}
    (h : (cause t.kind).Blames t) : P α t (Rule.failHere cause) (Rule.failHere cause)
  /-- Reading a lexeme of one kind. -/
  expect {t : Lexeme} {kind : TokenKind} (h : kind = .eof → X) :
    P String t (Rule.expect kind) (Rule.expect kind)
  /-- Reading an optional lexeme. -/
  skipOptional {t : Lexeme} {kind : TokenKind} (h : kind = .eof → Y) :
    P Unit t (Rule.skipOptional kind) (Rule.skipOptional kind)
  /-- Looking at the next lexeme. -/
  look {β : Type} {t : Lexeme} {f g : Lexeme → Rule β} (h : P β t (f t) (g t)) :
    P β t (peek >>= f) (peek >>= g)
  /-- Two rules in sequence. -/
  bind {α β : Type} {t : Lexeme} {p q : Rule α} {f g : α → Rule β} (h : P α t p q)
    (hfg : ∀ a u, P β u (f a) (g a)) : P β t (p >>= f) (q >>= g)

namespace Congruence

variable {X Y : Prop} {P : (α : Type) → Lexeme → Rule α → Rule α → Prop} {t : Lexeme}

/-- Reading a lexeme that is not the end of the text. -/
lemma read (h : Congruence X Y P) {kind : TokenKind} (hkind : kind ≠ .eof) :
    P String t (Rule.expect kind) (Rule.expect kind) :=
  h.expect fun heof => absurd heof hkind

/-- Reading an optional lexeme that is not the end of the text. -/
lemma skip (h : Congruence X Y P) {kind : TokenKind} (hkind : kind ≠ .eof) :
    P Unit t (Rule.skipOptional kind) (Rule.skipOptional kind) :=
  h.skipOptional fun heof => absurd heof hkind

end Congruence

end Rule

namespace Grammar

open Rule

/-- A statement without its semicolon. -/
def unterminated (expression : Rule Expr) : Rule Stmt := do
  let t ← peek
  match t.kind with
  | .kwLet => do
    let _ ← expect .kwLet
    let name ← expect .ident
    let _ ← expect .assign
    let value ← expression
    return .letBind name value
  | .kwReturn => do
    let _ ← expect .kwReturn
    let next ← peek
    if next.kind = .semicolon ∨ next.kind = .eof ∨ next.kind = .rbrace then return .ret none
    else do
      let value ← expression
      return .ret (some value)
  | _ => do
    let value ← expression
    return .expr value

/-- A statement is read without its semicolon, and then the semicolon. -/
lemma statementWith_eq (expression : Rule Expr) : statementWith expression = (do
    let s ← unterminated expression
    skipOptional .semicolon
    return s) := by
  rw [statementWith, unterminated, bind_assoc]
  refine congrArg (Bind.bind peek) (funext fun t => ?_)
  generalize t.kind = kind
  cases kind
  case kwReturn =>
    simp only [bind_assoc]
    refine congrArg (Bind.bind _) (funext fun _ => congrArg (Bind.bind _) (funext fun next => ?_))
    split <;> simp only [bind_assoc, pure_bind]
  all_goals simp only [bind_assoc, pure_bind]

section

variable {X Y : Prop} {P : (α : Type) → Lexeme → Rule α → Rule α → Prop} {n m : Nat}

/-- An integer literal. -/
lemma integer_related (h : Congruence X Y P) {t : Lexeme} (ht : t.kind = .int) :
    P Expr t integer integer := by
  refine h.look ?_
  split
  · exact h.bind (h.read (by decide)) fun _ _ => h.pure _
  · rename_i hnone
    exact h.failHere ⟨ht, hnone⟩

/-- A list of names. -/
lemma names_related (h : Congruence X Y P) (hnm : n ≤ m) (t : Lexeme) :
    P (List String) t (names n) (names m) := by
  induction n generalizing m t with
  | zero => exact h.outOfBudget
  | succ n ih =>
    obtain ⟨m, rfl⟩ : ∃ k, m = k + 1 := ⟨m - 1, by omega⟩
    refine h.bind (h.read (by decide)) fun name u => h.look ?_
    split
    · refine h.bind (h.read (by decide)) fun _ u => ?_
      exact h.bind (ih (by omega) u) fun _ _ => h.pure _
    · exact h.bind (h.read (by decide)) fun _ _ => h.pure _

/-- A list of parameters. -/
lemma params_related (h : Congruence X Y P) (hnm : n ≤ m) (t : Lexeme) :
    P (List String) t (params n) (params m) := by
  refine h.bind (h.read (by decide)) fun _ u => h.look ?_
  split
  · exact h.bind (h.read (by decide)) fun _ _ => h.pure _
  · exact names_related h hnm u

/-- A statement without its semicolon, if its expressions are related. -/
lemma unterminated_related (h : Congruence X Y P) {p q : Rule Expr} (hp : ∀ t, P Expr t p q)
    (t : Lexeme) : P Stmt t (unterminated p) (unterminated q) := by
  refine h.look ?_
  split
  · refine h.bind (h.read (by decide)) fun _ _ => h.bind (h.read (by decide)) fun name _ => ?_
    exact h.bind (h.read (by decide)) fun _ u => h.bind (hp u) fun _ _ => h.pure _
  · refine h.bind (h.read (by decide)) fun _ u => h.look ?_
    split
    · exact h.pure _
    · exact h.bind (hp u) fun _ _ => h.pure _
  · exact h.bind (hp t) fun _ _ => h.pure _

/-- A statement, if its expressions are related. -/
lemma statementWith_related (h : Congruence X Y P) {p q : Rule Expr} (hp : ∀ t, P Expr t p q)
    (t : Lexeme) : P Stmt t (statementWith p) (statementWith q) := by
  rw [statementWith_eq, statementWith_eq]
  refine h.bind (unterminated_related h hp t) fun s _ => ?_
  exact h.bind (h.skip (by decide)) fun _ _ => h.pure _

end

/-- The rules with a budget are related to those with another. -/
structure Related (X Y : Prop) (P : (α : Type) → Lexeme → Rule α → Rule α → Prop) (n m : Nat) :
    Prop where
  /-- An operand. -/
  operand (t : Lexeme) : P Expr t (operand n) (operand m)
  /-- What follows an operand. -/
  continuation (level : Level) (left : Expr) (t : Lexeme) :
    P Expr t (continuation n level left) (continuation m level left)
  /-- An expression. -/
  expression (level : Level) (t : Lexeme) : P Expr t (expression n level) (expression m level)
  /-- The members of a list. -/
  items (stop : TokenKind) (hstop : stop = .eof → X) (t : Lexeme) :
    P (List Expr) t (items n stop) (items m stop)
  /-- A list. -/
  list (stop : TokenKind) (hstop : stop = .eof → X) (t : Lexeme) :
    P (List Expr) t (list n stop) (list m stop)
  /-- The entries of a hash. -/
  entries (t : Lexeme) : P (List (Expr × Expr)) t (entries n) (entries m)
  /-- Statements. -/
  statements (stop : TokenKind) (hstop : stop = .eof → Y) (t : Lexeme) :
    P (List Stmt) t (statements n stop) (statements m stop)

section

variable {X Y : Prop} {P : (α : Type) → Lexeme → Rule α → Rule α → Prop} {n m : Nat}

/-- A rule that reads one lexeme and makes an expression of it. -/
lemma literal_related (h : Congruence X Y P) {kind : TokenKind} {f : String → Expr} (t : Lexeme)
    (hkind : kind ≠ .eof) :
    P Expr t (expect kind >>= fun s => Pure.pure (f s))
      (expect kind >>= fun s => Pure.pure (f s)) :=
  h.bind (h.read hkind) fun _ _ => h.pure _

/-- A unary operation. -/
lemma unary_related (h : Congruence X Y P) (hall : Related X Y P n m) {kind : TokenKind}
    {op : UnaryOp} (t : Lexeme) (hkind : kind ≠ .eof) :
    P Expr t (expect kind >>= fun _ => expression n .unary >>= fun e => Pure.pure (.unary op e))
      (expect kind >>= fun _ => expression m .unary >>= fun e => Pure.pure (.unary op e)) :=
  h.bind (h.read hkind) fun _ u => h.bind (hall.expression .unary u) fun _ _ => h.pure _

/-- The statements of a block. -/
lemma block_related (hall : Related X Y P n m) (t : Lexeme) :
    P (List Stmt) t (statements n .rbrace) (statements m .rbrace) :=
  hall.statements .rbrace (fun heof => absurd heof (by decide)) t

/-- The literal of a function or of a macro. -/
lemma body_related (h : Congruence X Y P) (hall : Related X Y P n m) (hnm : n ≤ m)
    {kind : TokenKind} {f : List String → List Stmt → Expr} (t : Lexeme)
    (hkind : kind ≠ .eof) :
    P Expr t
      (expect kind >>= fun _ => params n >>= fun names => expect .lbrace >>= fun _ =>
        statements n .rbrace >>= fun body => Pure.pure (f names body))
      (expect kind >>= fun _ => params m >>= fun names => expect .lbrace >>= fun _ =>
        statements m .rbrace >>= fun body => Pure.pure (f names body)) := by
  refine h.bind (h.read hkind) fun _ u => h.bind (params_related h hnm u) fun names _ => ?_
  exact h.bind (h.read (by decide)) fun _ u => h.bind (block_related hall u) fun _ _ => h.pure _

/-- An operand. -/
lemma operand_related (h : Congruence X Y P) (hall : Related X Y P n m) (hnm : n ≤ m)
    (t : Lexeme) : P Expr t (operand (n + 1)) (operand (m + 1)) := by
  refine h.look ?_
  split
  · exact literal_related h t (by decide)
  · rename_i hkind
    exact integer_related h hkind
  · exact literal_related h t (by decide)
  · exact literal_related h t (by decide)
  · exact literal_related h t (by decide)
  · exact unary_related h hall t (by decide)
  · exact unary_related h hall t (by decide)
  · refine h.bind (h.read (by decide)) fun _ u => h.bind (hall.expression _ u) fun e _ => ?_
    exact h.bind (h.read (by decide)) fun _ _ => h.pure _
  · refine h.bind (h.read (by decide)) fun _ _ => h.bind (h.read (by decide)) fun _ u => ?_
    refine h.bind (hall.expression _ u) fun test _ => ?_
    refine h.bind (h.read (by decide)) fun _ _ => h.bind (h.read (by decide)) fun _ u => ?_
    refine h.bind (block_related hall u) fun yes _ => h.look ?_
    split
    · refine h.bind (h.read (by decide)) fun _ _ => h.bind (h.read (by decide)) fun _ u => ?_
      exact h.bind (block_related hall u) fun _ _ => h.pure _
    · exact h.pure _
  · exact body_related h hall hnm t (by decide)
  · exact body_related h hall hnm t (by decide)
  · refine h.bind (h.read (by decide)) fun _ u => ?_
    exact h.bind (hall.list .rbracket (fun heof => absurd heof (by decide)) u) fun _ _ => h.pure _
  · exact h.bind (h.read (by decide)) fun _ u => h.bind (hall.entries u) fun _ _ => h.pure _
  · refine h.failHere ⟨rfl, ?_⟩
    generalize t.kind = kind at *
    cases kind <;> first | rfl | contradiction

/-- What follows an operand. -/
lemma continuation_related (h : Congruence X Y P) (hall : Related X Y P n m) (level : Level)
    (left : Expr) (t : Lexeme) :
    P Expr t (continuation (n + 1) level left) (continuation (m + 1) level left) := by
  refine h.look ?_
  split
  · split
    · refine h.bind (h.read (by decide)) fun _ u => ?_
      refine h.bind (hall.list .rparen (fun heof => absurd heof (by decide)) u) fun args u => ?_
      exact hall.continuation _ _ u
    · refine h.bind (h.read (by decide)) fun _ u => ?_
      refine h.bind (hall.expression _ u) fun position _ => ?_
      exact h.bind (h.read (by decide)) fun _ u => hall.continuation _ _ u
    · split
      · rename_i hop
        have hkind : t.kind ≠ .eof := by
          intro heof
          rw [heof] at hop
          cases hop
        refine h.bind (h.read hkind) fun _ u => ?_
        exact h.bind (hall.expression _ u) fun right u => hall.continuation _ _ u
      · exact h.pure _
  · exact h.pure _

/-- The members of a list. -/
lemma items_related (h : Congruence X Y P) (hall : Related X Y P n m) {stop : TokenKind}
    (hstop : stop = .eof → X) (t : Lexeme) :
    P (List Expr) t (items (n + 1) stop) (items (m + 1) stop) := by
  refine h.bind (hall.expression _ t) fun e u => h.look ?_
  split
  · refine h.bind (h.read (by decide)) fun _ u => ?_
    exact h.bind (hall.items stop hstop u) fun _ _ => h.pure _
  · exact h.bind (h.expect hstop) fun _ _ => h.pure _

/-- A list. -/
lemma list_related (h : Congruence X Y P) (hall : Related X Y P n m) {stop : TokenKind}
    (hstop : stop = .eof → X) (t : Lexeme) :
    P (List Expr) t (list (n + 1) stop) (list (m + 1) stop) := by
  refine h.look ?_
  split
  · exact h.bind (h.expect hstop) fun _ _ => h.pure _
  · exact hall.items stop hstop t

/-- The entries of a hash. -/
lemma entries_related (h : Congruence X Y P) (hall : Related X Y P n m) (t : Lexeme) :
    P (List (Expr × Expr)) t (entries (n + 1)) (entries (m + 1)) := by
  refine h.look ?_
  split
  · exact h.bind (h.read (by decide)) fun _ _ => h.pure _
  · refine h.bind (hall.expression _ t) fun key _ => h.bind (h.read (by decide)) fun _ u => ?_
    refine h.bind (hall.expression _ u) fun value next => h.look ?_
    split
    · refine h.bind (h.skip (by decide)) fun _ u => ?_
      exact h.bind (hall.entries u) fun _ _ => h.pure _
    · rename_i hnext
      exact h.failHere ⟨rfl, by simpa [or_comm] using hnext⟩

/-- Statements. -/
lemma statements_related (h : Congruence X Y P) (hall : Related X Y P n m) {stop : TokenKind}
    (hstop : stop = .eof → Y) (t : Lexeme) :
    P (List Stmt) t (statements (n + 1) stop) (statements (m + 1) stop) := by
  refine h.look ?_
  split
  · exact h.bind (h.skipOptional hstop) fun _ _ => h.pure _
  split
  · rename_i hkind _
    exact h.failHere ⟨rfl, by simpa using hkind⟩
  · refine h.bind (statementWith_related h (hall.expression _) t) fun s u => ?_
    exact h.bind (hall.statements stop hstop u) fun _ _ => h.pure _

/-- **All rules are in every relation that composition keeps**, with those of every larger budget.

**Proof sketch.** Induction on the smaller budget. Every rule is composed of smaller ones. Where it
fails, the lexeme that it has looked at is one of none of the kinds that it had asked for. -/
theorem related (h : Congruence X Y P) (hnm : n ≤ m) : Related X Y P n m := by
  induction n generalizing m with
  | zero => constructor <;> intros <;> exact h.outOfBudget
  | succ n ih =>
    obtain ⟨m, rfl⟩ : ∃ k, m = k + 1 := ⟨m - 1, by omega⟩
    have hle : n ≤ m := Nat.le_of_succ_le_succ hnm
    have hall : Related X Y P n m := ih hle
    exact {
      operand := operand_related h hall hle
      continuation := continuation_related h hall
      expression := fun level t =>
        h.bind (hall.operand t) fun left u => hall.continuation level left u
      items := fun _ hstop => items_related h hall hstop
      list := fun _ hstop => list_related h hall hstop
      entries := entries_related h hall
      statements := fun _ hstop => statements_related h hall hstop }

end

end Grammar

/-! ## Rules that look at one lexeme -/

namespace Reply

variable {α : Type}

/-- The lexemes that are left where a rule has stopped. -/
def rest? : Reply α → Option (List Lexeme)
  | ok _ rest => some rest
  | fail f => some f.rest
  | exhausted => none

/-- The same reply with other lexemes left. -/
def leaving (rest : List Lexeme) : Reply α → Reply α
  | ok a _ => ok a rest
  | fail f => fail ⟨f.cause, rest⟩
  | exhausted => exhausted

@[simp]
lemma leaving_leaving (ts us : List Lexeme) (r : Reply α) :
    (r.leaving ts).leaving us = r.leaving us := by
  cases r <;> rfl

/-- What a reply has been made to leave is left. -/
lemma eq_of_rest?_leaving {ts rest : List Lexeme} {r : Reply α}
    (h : (r.leaving ts).rest? = some rest) : ts = rest := by
  cases r with
  | ok | fail => exact Option.some.inj h
  | exhausted => cases h

end Reply

/-- The same lexeme comes next. Where `E` holds, the end of the lexemes is told from a lexeme that
stands for the end of the text. -/
def SameNext (E : Prop) (ts us : List Lexeme) : Prop :=
  ts.headD .eof = us.headD .eof ∧ (E → (ts = [] ↔ us = []))

/-- The same lexeme comes next behind other lexemes. -/
lemma SameNext.append {E : Prop} {ts us : List Lexeme} (h : SameNext E ts us)
    (before : List Lexeme) : SameNext E (before ++ ts) (before ++ us) := by
  cases before with
  | nil => exact h
  | cons t before => exact ⟨rfl, fun _ => ⟨nofun, nofun⟩⟩

namespace Rule

variable {α : Type} {E : Prop} {t : Lexeme} {p q : Rule α} {ts rest : List Lexeme}

/-- At a next lexeme, a rule looks at no more than one lexeme behind those that it reads: another
rule answers the same if other lexemes follow, as long as the first of them is the same. -/
def LocalAt (E : Prop) (t : Lexeme) (p q : Rule α) : Prop :=
  ∀ ts rest, ts.headD .eof = t → (p ts).rest? = some rest →
    ∃ us, ts = us ++ rest ∧ ∀ rest', SameNext E rest rest' → q (us ++ rest') = (p ts).leaving rest'

/-- A rule is **local** if it looks at no more than one lexeme behind those that it reads. -/
def Local (E : Prop) (p q : Rule α) : Prop :=
  ∀ t, LocalAt E t p q

/-- A local rule that has read a value reads it whatever follows the next lexeme. -/
lemma Local.ok {a : α} (h : Local E p q) (hp : p ts = .ok a rest) :
    ∃ us, ts = us ++ rest ∧ ∀ rest', SameNext E rest rest' → q (us ++ rest') = .ok a rest' := by
  obtain ⟨us, hts, hq⟩ := h _ ts rest rfl (by rw [hp]; rfl)
  rw [hp] at hq
  exact ⟨us, hts, hq⟩

/-- A local rule that has failed fails whatever follows the next lexeme. -/
lemma Local.fail {f : Failure} (h : Local E p q) (hp : p ts = .fail f) :
    ∃ us, ts = us ++ f.rest ∧
      ∀ rest', SameNext E f.rest rest' → q (us ++ rest') = .fail ⟨f.cause, rest'⟩ := by
  obtain ⟨us, hts, hq⟩ := h _ ts f.rest rfl (by rw [hp]; rfl)
  rw [hp] at hq
  exact ⟨us, hts, hq⟩

/-- A local rule that does not run out of its budget answers the same with the other budget. -/
lemma Local.agrees (h : Local E p q) (hp : p ts ≠ .exhausted) : q ts = p ts := by
  have hnext (rest : List Lexeme) : SameNext E rest rest := ⟨rfl, fun _ => Iff.rfl⟩
  cases hreply : p ts with
  | ok a rest =>
    obtain ⟨us, rfl, hq⟩ := h.ok hreply
    exact hq rest (hnext rest)
  | fail f =>
    obtain ⟨us, rfl, hq⟩ := h.fail hreply
    exact hq f.rest (hnext f.rest)
  | exhausted => exact absurd hreply hp

/-- A sequence whose first rule runs out of its budget does so as well. -/
lemma bind_of_exhausted {β : Type} {f : α → Rule β} (h : p ts = .exhausted) :
    (p >>= f) ts = .exhausted := by
  change Rule.bind p f ts = _
  rw [Rule.bind, h]

/-- At a lexeme of another kind a rule that demands one fails. -/
lemma expect_of_ne {kind : TokenKind} (h : (ts.headD .eof).kind ≠ kind) :
    expect kind ts = .fail ⟨.unexpectedToken [kind] (ts.headD .eof).kind, ts⟩ := by
  cases ts with
  | nil => rfl
  | cons t ts => exact if_neg h

/-- A rule that reads nothing at the next lexeme, and whose answer depends on nothing else, is local
there. -/
lemma localAt_of_leaving {r : Reply α} (h : ∀ ts, ts.headD .eof = t → p ts = r.leaving ts) :
    LocalAt E t p p := by
  intro ts rest ht hrest
  rw [h ts ht] at hrest ⊢
  obtain rfl := Reply.eq_of_rest?_leaving hrest
  refine ⟨[], rfl, fun rest' hnext => ?_⟩
  rw [Reply.leaving_leaving]
  exact h rest' (hnext.1.symm.trans ht)

/-- A rule that reads the next lexeme is local there. If this may be the end of the text, the rule
may answer as well where there is no lexeme. -/
lemma localAt_of_reads {a : α} {r : Reply α} (hread : ∀ us, p (t :: us) = .ok a us)
    (hend : p [] = r.leaving []) (heof : t.kind = .eof → E) : LocalAt E t p p := by
  intro ts rest ht hrest
  cases ts with
  | nil =>
    rw [hend] at hrest ⊢
    obtain rfl := Reply.eq_of_rest?_leaving hrest
    refine ⟨[], rfl, fun rest' hnext => ?_⟩
    obtain rfl : rest' = [] := (hnext.2 (heof (ht ▸ rfl))).mp rfl
    rw [Reply.leaving_leaving]
    exact hend
  | cons u us =>
    obtain rfl : u = t := ht
    rw [hread] at hrest ⊢
    cases hrest
    exact ⟨[u], rfl, fun rest' _ => hread rest'⟩

/-- The rule that always fails is local. -/
lemma localAt_failHere (E : Prop) (t : Lexeme) (cause : TokenKind → ParseCause) :
    LocalAt E t (failHere cause : Rule α) (failHere cause) := by
  refine localAt_of_leaving (r := .fail ⟨cause t.kind, []⟩) ?_
  rintro ts rfl
  rfl

/-- Reading a lexeme of one kind is local. -/
lemma localAt_expect {kind : TokenKind} (h : kind = .eof → E) :
    LocalAt E t (expect kind) (expect kind) := by
  by_cases hkind : t.kind = kind
  · have hread (us : List Lexeme) : expect kind (t :: us) = .ok t.literal us := if_pos hkind
    subst hkind
    exact localAt_of_reads (r := .fail ⟨.unexpectedToken [t.kind] .eof, []⟩) hread rfl h
  · refine localAt_of_leaving (r := .fail ⟨.unexpectedToken [kind] t.kind, []⟩) ?_
    rintro ts rfl
    exact expect_of_ne hkind

/-- Reading an optional lexeme is local. -/
lemma localAt_skipOptional {kind : TokenKind} (h : kind = .eof → E) :
    LocalAt E t (skipOptional kind) (skipOptional kind) := by
  by_cases hkind : t.kind = kind
  · subst hkind
    exact localAt_of_reads (r := .ok () []) (skipOptional_cons t) rfl h
  · refine localAt_of_leaving (r := .ok () []) ?_
    rintro ts rfl
    exact skipOptional_of_ne hkind

/-- A rule that looks at the next lexeme is local if the rule is that it goes on with. -/
lemma localAt_peek {f g : Lexeme → Rule α} (h : LocalAt E t (f t) (g t)) :
    LocalAt E t (peek >>= f) (peek >>= g) := by
  intro ts rest ht hrest
  rw [peek_bind, ht] at hrest ⊢
  obtain ⟨us, hts, hg⟩ := h ts rest ht hrest
  refine ⟨us, hts, fun rest' hnext => ?_⟩
  have hhead : (us ++ rest').headD .eof = t := by
    rw [← (hnext.append us).1, ← hts, ht]
  rw [peek_bind, hhead]
  exact hg rest' hnext

/-- **A sequence of local rules is local.** The next lexeme of the first rule is the first that the
second one reads, or the next lexeme of the second rule as well. -/
theorem LocalAt.bind {β : Type} {f g : α → Rule β} (h : LocalAt E t p q)
    (hfg : ∀ a u, LocalAt E u (f a) (g a)) : LocalAt E t (p >>= f) (q >>= g) := by
  intro ts rest ht hrest
  cases hp : p ts with
  | ok a ts₁ =>
    rw [bind_of_ok hp] at hrest ⊢
    obtain ⟨us₁, rfl, hq⟩ := h ts ts₁ ht (by rw [hp]; rfl)
    obtain ⟨us₂, rfl, hg⟩ := hfg a _ ts₁ rest rfl hrest
    refine ⟨us₁ ++ us₂, by rw [List.append_assoc], fun rest' hnext => ?_⟩
    have hread := hq (us₂ ++ rest') (hnext.append us₂)
    rw [hp] at hread
    rw [List.append_assoc, bind_of_ok hread]
    exact hg rest' hnext
  | fail e =>
    have hfail : (p >>= f) ts = .fail e := bind_eq_fail.mpr (.inl hp)
    rw [hfail] at hrest ⊢
    obtain ⟨us, hts, hq⟩ := h ts rest ht (by rw [hp]; exact hrest)
    refine ⟨us, hts, fun rest' hnext => ?_⟩
    have hread := hq rest' hnext
    rw [hp] at hread
    exact bind_eq_fail.mpr (.inl hread)
  | exhausted =>
    rw [bind_of_exhausted hp] at hrest
    cases hrest

/-- Being local is kept by composition. -/
lemma localAt_congruence (E : Prop) : Congruence E E fun _ => LocalAt E where
  pure a := localAt_of_leaving (r := .ok a []) fun _ _ => rfl
  outOfBudget := nofun
  failHere _ := localAt_failHere E _ _
  expect := localAt_expect
  skipOptional := localAt_skipOptional
  look := localAt_peek
  bind := LocalAt.bind

/-- At a next lexeme, a rule fails for causes only that are about the lexeme it has stopped at. -/
def Blaming (t : Lexeme) (p : Rule α) : Prop :=
  ∀ ts f, ts.headD .eof = t → p ts = .fail f → f.cause.Blames f.lexeme

/-- Failing for such causes is kept by composition. -/
lemma blaming_congruence : Congruence False True fun _ t p _ => Blaming t p where
  pure _ := nofun
  outOfBudget := nofun
  failHere h := by
    rintro ts _ rfl ⟨⟩
    exact h
  expect {t kind} h := by
    intro ts f _ hfail
    by_cases hkind : (ts.headD .eof).kind = kind
    · cases ts with
      | nil => exact (h hkind.symm).elim
      | cons t us =>
        rw [show Rule.expect kind (t :: us) = _ from if_pos hkind] at hfail
        cases hfail
    · rw [expect_of_ne hkind] at hfail
      cases hfail
      exact ⟨rfl, by simpa using hkind⟩
  skipOptional {t kind} _ := by
    intro ts f _ hfail
    cases ts with
    | nil => cases hfail
    | cons t ts =>
      rw [Rule.skipOptional] at hfail
      split at hfail <;> cases hfail
  look h := by
    intro ts f ht hfail
    rw [peek_bind, ht] at hfail
    exact h ts f ht hfail
  bind h hfg := by
    intro ts f ht hfail
    rcases bind_eq_fail.mp hfail with hp | ⟨a, ts₁, -, hf⟩
    · exact h ts f ht hp
    · exact hfg a _ ts₁ f rfl hf

end Rule

namespace Grammar

open Rule

/-- **All rules are local**, and answer the same with every larger budget. -/
theorem locals (E : Prop) {n m : Nat} (h : n ≤ m) : Related E E (fun _ => LocalAt E) n m :=
  related (localAt_congruence E) h

/-- **The cause of a failure is about the lexeme** that the rule has stopped at. -/
theorem blaming (n : Nat) : Related False True (fun _ t p _ => Blaming t p) n n :=
  related blaming_congruence (Nat.le_refl n)

/-- The rule for a program is local. -/
lemma program_local {n m : Nat} (h : n ≤ m) :
    Local True (statements n .eof) (statements m .eof) :=
  (locals True h).statements .eof fun _ => trivial

/-- Statements are read alike with every budget that is large enough. -/
lemma statements_eq {n : Nat} {ts : List Lexeme} (h : statements n .eof ts ≠ .exhausted) :
    statements (budget ts) .eof ts = statements n .eof ts := by
  have hn := program_local (Nat.le_max_left n (budget ts))
  have hbudget := program_local (Nat.le_max_right n (budget ts))
  rw [← hn.agrees h, hbudget.agrees (statements_ne_exhausted ts .eof)]

end Grammar

/-! ## Programs -/

section

variable {n : Nat} {ts : List Lexeme}

/-- Lexemes are read as a program exactly as they are read as its statements. -/
lemma Program.ofLexemes_cases (ts : List Lexeme) :
    (∃ program rest, Grammar.statements (Grammar.budget ts) .eof ts = .ok program rest ∧
      ofLexemes ts = .ok program) ∨
    ∃ f, Grammar.statements (Grammar.budget ts) .eof ts = .fail f ∧ ofLexemes ts = .error f := by
  unfold ofLexemes
  split
  case h_1 program rest hread => exact .inl ⟨program, rest, hread, rfl⟩
  case h_2 f hread => exact .inr ⟨f, hread, rfl⟩
  case h_3 hread => exact absurd hread (Grammar.statements_ne_exhausted ts .eof)

/-- What is read as statements is read as a program. -/
lemma Program.ofLexemes_of_ok {program : Program} {rest : List Lexeme}
    (h : Grammar.statements n .eof ts = .ok program rest) : ofLexemes ts = .ok program := by
  have hbudget := Grammar.statements_eq (by rw [h]; nofun : Grammar.statements n .eof ts ≠ _)
  rw [h] at hbudget
  obtain ⟨program', rest', hread, hparse⟩ | ⟨f, hread, -⟩ := ofLexemes_cases ts
  · rw [hbudget] at hread
    cases hread
    exact hparse
  · rw [hbudget] at hread
    cases hread

/-- Where statements cannot be read, a program cannot be read for the same cause. -/
lemma Program.ofLexemes_of_fail {f : Failure} (h : Grammar.statements n .eof ts = .fail f) :
    ofLexemes ts = .error f := by
  have hbudget := Grammar.statements_eq (by rw [h]; nofun : Grammar.statements n .eof ts ≠ _)
  rw [h] at hbudget
  obtain ⟨program, rest, hread, -⟩ | ⟨f', hread, hparse⟩ := ofLexemes_cases ts
  · rw [hbudget] at hread
    cases hread
  · rw [hbudget] at hread
    cases hread
    exact hparse

end

end QuoteLang
