import QuoteLang.Grammar

set_option relaxedAutoImplicit false
set_option autoImplicit false

/-!
# Budgets of the grammar

How large a budget the rules of the grammar need: one that grows linearly with the number of
lexemes.

## Main definitions

* `Grammar.budget` — four units for each lexeme and four more.

## Main results

* `Grammar.operand_within`, `Grammar.expression_within`, … — with enough units, a rule settles
  every list of a given length if the rules that it is made of do.
* `Grammar.settled` — every rule settles every list for which it has enough units.
* `Grammar.statements_ne_exhausted` — `Grammar.budget` is enough to read statements.
-/

namespace QuoteLang

namespace Grammar

open Rule Rule.Within

/-- A budget that is enough to read a list of lexemes: four units for each and four more. -/
def budget (ts : List Lexeme) : Nat :=
  4 * ts.length + 4

/-! ## Rules that need no recursion into expressions -/

/-- An integer literal reads a lexeme. -/
theorem integer_within {len : Nat} : Within len 1 integer := by
  refine looks peek fun t => ?_
  split
  · exact reads (expect _) (fun _ _ => pure _) (by omega)
  · exact failHere _

/-- A list of names reads a lexeme. -/
theorem names_within {n : Nat} : ∀ {len : Nat}, len + 1 ≤ n → Within len 1 (names n) := by
  induction n with
  | zero => intro len h; omega
  | succ n ih =>
    intro len h
    refine reads (expect _) (fun hlen name => looks peek fun t => ?_) (by omega)
    split
    · refine reads (expect _) (fun hlen' _ => ?_) (by omega)
      exact looks ((ih (by omega)).mono (Nat.le_refl _) (by omega)) fun _ => pure _
    · exact reads (expect _) (fun _ _ => pure _) (by omega)

/-- A list of parameters reads a lexeme. -/
theorem params_within {n len : Nat} (h : len ≤ n) : Within len 1 (params n) := by
  refine reads (expect _) (fun hlen _ => looks peek fun t => ?_) (by omega)
  split
  · exact reads (expect _) (fun _ _ => pure _) (by omega)
  · exact (names_within (by omega)).mono (Nat.le_refl _) (by omega)

/-- A statement reads a lexeme if its expressions do. -/
theorem statementWith_within {len : Nat} {e : Rule Expr} (he : Within len 1 e) :
    Within len 1 (statementWith e) := by
  have hval : Within (len - 1) 1 e := he.mono (by omega) (Nat.le_refl _)
  refine looks peek fun t => ?_
  split
  · refine reads (expect _) (fun _ _ => ?_) (by omega)
    refine reads (expect _) (fun _ name => ?_) (by omega)
    refine reads (expect _) (fun _ _ => ?_) (by omega)
    refine reads (he.mono (by omega) (Nat.le_refl _)) (fun _ value => ?_) (by omega)
    exact looks (skipOptional _) fun _ => pure _
  · refine reads (expect _) (fun _ _ => looks peek fun next => ?_) (by omega)
    split
    · exact looks (skipOptional _) fun _ => pure _
    · refine reads hval (fun _ value => ?_) (by omega)
      exact looks (skipOptional _) fun _ => pure _
  · refine reads he (fun _ value => ?_) (by omega)
    exact looks (skipOptional _) fun _ => pure _

/-! ## Expressions and their parts -/

/-- All rules for expressions settle the lists of at most `len` lexemes with `n` units, as far as
`n` is large enough for the rule. -/
structure Settled (n len : Nat) : Prop where
  /-- An operand needs four units for each lexeme and one more. -/
  operand : 4 * len + 1 ≤ n → Within len 1 (operand n)
  /-- What follows an operand needs as much. -/
  continuation : 4 * len + 1 ≤ n → ∀ level left, Within len 0 (continuation n level left)
  /-- An expression needs one unit more. -/
  expression : 4 * len + 2 ≤ n → ∀ level, Within len 1 (expression n level)
  /-- The members of a list need two units more. -/
  items : 4 * len + 3 ≤ n → ∀ stop, Within len 0 (items n stop)
  /-- A list needs three units more. -/
  list : 4 * len + 4 ≤ n → ∀ stop, Within len 0 (list n stop)
  /-- The entries of a hash need two units more. -/
  entries : 4 * len + 3 ≤ n → Within len 0 (entries n)
  /-- Statements need two units more. -/
  statements : 4 * len + 3 ≤ n → ∀ stop, Within len 0 (statements n stop)

section

variable {n len : Nat}

/-- A rule that reads one lexeme and makes an expression of it. -/
theorem literal_within {kind : TokenKind} {f : String → Expr} :
    Within len 1 (expect kind >>= fun s => (Pure.pure (f s) : Rule Expr)) :=
  reads (expect _) (fun _ _ => pure _) (by omega)

/-- A unary operation. -/
theorem unary_within (ih : ∀ len, Settled n len) (h : 4 * len ≤ n) {kind : TokenKind}
    {op : UnaryOp} :
    Within len 1 (expect kind >>= fun _ => expression n .unary >>= fun e =>
      (Pure.pure (.unary op e) : Rule Expr)) := by
  refine reads (expect _) (fun hlen _ => ?_) (by omega)
  exact reads ((ih _).expression (by omega) _) (fun _ _ => pure _) (by omega)

/-- The literal of a function or of a macro. -/
theorem body_within (ih : ∀ len, Settled n len) (h : 4 * len ≤ n) {kind : TokenKind}
    {f : List String → List Stmt → Expr} :
    Within len 1 (expect kind >>= fun _ => params n >>= fun names => expect .lbrace >>= fun _ =>
      statements n .rbrace >>= fun body => (Pure.pure (f names body) : Rule Expr)) := by
  refine reads (expect _) (fun hlen _ => ?_) (by omega)
  refine reads (params_within (by omega)) (fun _ names => ?_) (by omega)
  refine reads (expect _) (fun _ _ => ?_) (by omega)
  exact looks ((ih _).statements (by omega) _) fun _ => pure _

/-- An operand. -/
theorem operand_within (ih : ∀ len, Settled n len) (h : 4 * len ≤ n) :
    Within len 1 (operand (n + 1)) := by
  refine looks peek fun t => ?_
  split
  · exact literal_within
  · exact integer_within
  · exact literal_within
  · exact literal_within
  · exact literal_within
  · exact unary_within ih h
  · exact unary_within ih h
  · refine reads (expect _) (fun hlen _ => ?_) (by omega)
    refine reads ((ih _).expression (by omega) _) (fun _ e => ?_) (by omega)
    exact reads (expect _) (fun _ _ => pure _) (by omega)
  · refine reads (expect _) (fun hlen _ => ?_) (by omega)
    refine reads (expect _) (fun _ _ => ?_) (by omega)
    refine reads ((ih _).expression (by omega) _) (fun _ test => ?_) (by omega)
    refine reads (expect _) (fun _ _ => ?_) (by omega)
    refine reads (expect _) (fun _ _ => ?_) (by omega)
    refine looks ((ih _).statements (by omega) _) fun yes => looks peek fun next => ?_
    split
    · refine reads (expect _) (fun _ _ => ?_) (by omega)
      refine reads (expect _) (fun _ _ => ?_) (by omega)
      exact looks ((ih _).statements (by omega) _) fun _ => pure _
    · exact pure _
  · exact body_within ih h
  · exact body_within ih h
  · refine reads (expect _) (fun hlen _ => ?_) (by omega)
    exact looks ((ih _).list (by omega) _) fun _ => pure _
  · refine reads (expect _) (fun hlen _ => ?_) (by omega)
    exact looks ((ih _).entries (by omega)) fun _ => pure _
  · exact failHere _

/-- What follows an operand. -/
theorem continuation_within (ih : ∀ len, Settled n len) (h : 4 * len ≤ n) (level : Level)
    (left : Expr) : Within len 0 (continuation (n + 1) level left) := by
  refine looks peek fun t => ?_
  split
  · split
    · refine reads (expect _) (fun hlen _ => ?_) (by omega)
      refine looks ((ih _).list (by omega) _) fun args => ?_
      exact (ih _).continuation (by omega) _ _
    · refine reads (expect _) (fun hlen _ => ?_) (by omega)
      refine reads ((ih _).expression (by omega) _) (fun _ position => ?_) (by omega)
      refine reads (expect _) (fun _ _ => ?_) (by omega)
      exact (ih _).continuation (by omega) _ _
    · split
      · refine reads (expect _) (fun hlen _ => ?_) (by omega)
        refine reads ((ih _).expression (by omega) _) (fun _ right => ?_) (by omega)
        exact (ih _).continuation (by omega) _ _
      · exact pure _
  · exact pure _

/-- An expression. -/
theorem expression_within (ih : ∀ len, Settled n len) (h : 4 * len + 1 ≤ n) (level : Level) :
    Within len 1 (expression (n + 1) level) := by
  refine reads ((ih _).operand (by omega)) (fun hlen left => ?_) (by omega)
  exact (ih _).continuation (by omega) _ _

/-- The members of a list. -/
theorem items_within (ih : ∀ len, Settled n len) (h : 4 * len + 2 ≤ n) (stop : TokenKind) :
    Within len 0 (items (n + 1) stop) := by
  refine reads ((ih _).expression (by omega) _) (fun hlen e => looks peek fun t => ?_)
    (by omega)
  split
  · refine reads (expect _) (fun hlen' _ => ?_) (by omega)
    exact looks ((ih _).items (by omega) _) fun _ => pure _
  · exact reads (expect _) (fun _ _ => pure _) (by omega)

/-- A list. -/
theorem list_within (ih : ∀ len, Settled n len) (h : 4 * len + 3 ≤ n) (stop : TokenKind) :
    Within len 0 (list (n + 1) stop) := by
  refine looks peek fun t => ?_
  split
  · exact reads (expect _) (fun _ _ => pure _) (by omega)
  · exact (ih _).items (by omega) _

/-- The entries of a hash. -/
theorem entries_within (ih : ∀ len, Settled n len) (h : 4 * len + 2 ≤ n) :
    Within len 0 (entries (n + 1)) := by
  refine looks peek fun t => ?_
  split
  · exact reads (expect _) (fun _ _ => pure _) (by omega)
  · refine reads ((ih _).expression (by omega) _) (fun hlen key => ?_) (by omega)
    refine reads (expect _) (fun hlen' _ => ?_) (by omega)
    refine reads ((ih _).expression (by omega) _) (fun _ value => looks peek fun next => ?_)
      (by omega)
    split
    · refine looks (skipOptional _) fun _ => ?_
      exact looks ((ih _).entries (by omega)) fun _ => pure _
    · exact failHere _

/-- Statements. -/
theorem statements_within (ih : ∀ len, Settled n len) (h : 4 * len + 2 ≤ n) (stop : TokenKind) :
    Within len 0 (statements (n + 1) stop) := by
  refine looks peek fun t => ?_
  split
  · exact looks (skipOptional _) fun _ => pure _
  split
  · exact failHere _
  · refine reads (statementWith_within ((ih _).expression (by omega) _)) (fun hlen s => ?_)
      (by omega)
    exact looks ((ih _).statements (by omega) _) fun _ => pure _

end

/-- **Budgets**: every rule settles every list for which it has enough units.

**Proof sketch.** Induction on the units. A rule that recurs at the same lexeme takes one of the
units that its line in `Settled` has above the line of the rule it recurs to; after a lexeme there
are four units more. -/
theorem settled (n : Nat) : ∀ len, Settled n len := by
  induction n with
  | zero => intro len; constructor <;> intro h <;> omega
  | succ n ih =>
    intro len
    exact {
      operand := fun h => operand_within ih (Nat.le_of_succ_le_succ h)
      continuation := fun h => continuation_within ih (Nat.le_of_succ_le_succ h)
      expression := fun h => expression_within ih (Nat.le_of_succ_le_succ h)
      items := fun h => items_within ih (Nat.le_of_succ_le_succ h)
      list := fun h => list_within ih (Nat.le_of_succ_le_succ h)
      entries := fun h => entries_within ih (Nat.le_of_succ_le_succ h)
      statements := fun h => statements_within ih (Nat.le_of_succ_le_succ h) }

/-- The budget is enough to read statements. -/
theorem statements_ne_exhausted (ts : List Lexeme) (stop : TokenKind) :
    statements (budget ts) stop ts ≠ .exhausted :=
  ((settled (budget ts) ts.length).statements (by unfold budget; omega) stop ts
    (Nat.le_refl _)).1

end Grammar

end QuoteLang
