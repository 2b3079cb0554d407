import QuoteLang.Proofs.Blind
import QuoteLang.Proofs.Order

set_option relaxedAutoImplicit false
set_option autoImplicit false

/-!
# Evaluations that are too deep

An evaluation is too deep because a part of it is, or because the depth is used up where the body of
a function should be evaluated, or the argument of an `unquote`. Nothing else takes any depth. So
whatever is too deep has reached a point where the depth is used up.

## Main definitions

* `Point.Exhausted` — the points where the depth is used up.

## Main results

* `Run.bind_eq_tooDeep` — when two runs in sequence are too deep.
* `Point.exhausted_or_part` — why the evaluation at a point is too deep.
* `Point.reaches_exhausted` — an evaluation that is too deep reaches a point where the depth is used
  up.
-/

namespace QuoteLang

open Run

/-- A sequence is too deep exactly if the first run is, or the second after a value of the first. -/
theorem Run.bind_eq_tooDeep {ε α β : Type} {x : Run ε α} {f : α → Run ε β} {st : Store} :
    (x >>= f) st = .tooDeep ↔
      x st = .tooDeep ∨ ∃ a st₁, x st = .ok a st₁ ∧ f a st₁ = .tooDeep := by
  simp [bind_eq_iff, or_comm]

namespace Point

/-- The depth is **used up** at a point: there is none left for the body of the function that is
called, or for the argument of an `unquote`. -/
inductive Exhausted : Point → Prop
  /-- There is none left for the body of a function. -/
  | body {s : ScopeId} {f : Expr} {args : List Expr} {st st₁ st₂ : Store} {c : Closure}
      {vs : List Value} (hquote : f.isQuoteName = false)
      (hf : f.eval 0 s st = .ok (.function c) st₁)
      (hargs : evalExprs (evalBlock 0) s args st₁ = .ok vs st₂)
      (hlen : vs.length = c.params.length) : Exhausted ⟨0, s, .expr (.call f args), st⟩
  /-- There is none left for the argument of an `unquote`. -/
  | unquoted {s : ScopeId} {h arg : Expr} {hs : List Expr} {st : Store}
      (harg : h.unquoted? = some arg) : Exhausted ⟨0, s, .splices (h :: hs), st⟩

/-- The depth is used up at a point, or the evaluation of a part is too deep. -/
def RunsOut (P : Point) : Prop :=
  P.Exhausted ∨ ∃ Q, P.Part Q ∧ Q.outcome = .tooDeep

section

variable {d : Nat} {s : ScopeId} {st : Store}

/-! ## Lists -/

/-- Statements are too deep because one of them is. -/
lemma runsOut_stmts {before : Value} {ss : List Stmt}
    (h : evalStmts (evalBlock d) s before ss st = .tooDeep) :
    RunsOut ⟨d, s, .stmts before ss, st⟩ := by
  cases ss with
  | nil =>
    rw [evalStmts] at h
    cases h
  | cons stmt ss =>
    rw [evalStmts, bind_eq_tooDeep] at h
    rcases h with h | ⟨v, st₁, hs, h⟩
    · exact .inr ⟨_, .inr .first, h⟩
    · split at h
      · cases h
      · rename_i hv
        exact .inr ⟨_, .inr (.next hs (by simpa using hv)), h⟩

/-- Expressions are too deep because one of them is. -/
lemma runsOut_exprs {es : List Expr} (h : evalExprs (evalBlock d) s es st = .tooDeep) :
    RunsOut ⟨d, s, .exprs es, st⟩ := by
  cases es with
  | nil =>
    rw [evalExprs] at h
    cases h
  | cons e es =>
    rw [evalExprs, bind_eq_tooDeep] at h
    rcases h with h | ⟨v, st₁, he, h⟩
    · exact .inr ⟨_, .inl .item, h⟩
    · rcases bind_eq_tooDeep.mp h with h | ⟨_, _, -, h⟩
      · exact .inr ⟨_, .inr (.restExprs he), h⟩
      · cases h

/-- Entries are too deep because a key or a value is. -/
lemma runsOut_entries {before : List (Key × Value)} {rest : List (Expr × Expr)}
    (h : evalEntries (evalBlock d) s before rest st = .tooDeep) :
    RunsOut ⟨d, s, .entries before rest, st⟩ := by
  cases rest with
  | nil =>
    rw [evalEntries] at h
    cases h
  | cons pair rest =>
    obtain ⟨k, e⟩ := pair
    rw [evalEntries, bind_eq_tooDeep] at h
    rcases h with h | ⟨v, st₁, hk, h⟩
    · exact .inr ⟨_, .inl .key, h⟩
    · cases hkey : v.key? with
      | none =>
        rw [hkey] at h
        cases h
      | some key =>
        rw [hkey] at h
        rcases bind_eq_tooDeep.mp h with h | ⟨w, st₂, he, h⟩
        · exact .inr ⟨_, .inl (.value hk hkey), h⟩
        · exact .inr ⟨_, .inr (.restEntries hk hkey he), h⟩

/-- What a quotation hands over is too deep because the argument of an `unquote` is, or comes where
the depth is used up. -/
lemma runsOut_splices {hs : List Expr}
    (h : hs.mapM (spliceWith (evalBlock d) s) st = .tooDeep) :
    RunsOut ⟨d, s, .splices hs, st⟩ := by
  cases hs with
  | nil =>
    rw [List.mapM_nil] at h
    cases h
  | cons e hs =>
    rw [List.mapM_cons] at h
    rcases bind_eq_tooDeep.mp h with h | ⟨a, st₁, ha, h⟩
    · rw [spliceWith] at h
      cases harg : e.unquoted? with
      | none =>
        rw [harg] at h
        cases h
      | some arg =>
        rw [harg] at h
        cases d with
        | zero => exact .inl (.unquoted harg)
        | succ d =>
          rcases bind_eq_tooDeep.mp h with h | ⟨v, st₁, -, h⟩
          · rw [evalBlock, evalStmts_expr] at h
            exact .inr ⟨_, .inl (.unquoted harg), h⟩
          · exact absurd h ((toSyntax_blind v.within_all).ne_tooDeep st₁)
    · rcases bind_eq_tooDeep.mp h with h | ⟨_, _, -, h⟩
      · exact .inr ⟨_, .inr (.restSplices ha), h⟩
      · cases h

/-! ## Statements and expressions -/

/-- A statement is too deep because its expression is. -/
lemma runsOut_stmt {stmt : Stmt} (h : stmt.evalWith (evalBlock d) s st = .tooDeep) :
    RunsOut ⟨d, s, .stmt stmt, st⟩ := by
  cases stmt with
  | letBind name e =>
    rw [Stmt.evalWith, bind_eq_tooDeep] at h
    rcases h with h | ⟨_, _, -, h⟩
    · exact .inr ⟨_, .inl .letBind, h⟩
    · cases h
  | ret value =>
    cases value with
    | none =>
      rw [Stmt.evalWith] at h
      cases h
    | some e =>
      rw [Stmt.evalWith, bind_eq_tooDeep] at h
      rcases h with h | ⟨_, _, -, h⟩
      · exact .inr ⟨_, .inl .ret, h⟩
      · cases h
  | expr e =>
    rw [Stmt.evalWith] at h
    exact .inr ⟨_, .inr .expr, h⟩

/-- A call is too deep because the body of the function is, or comes where the depth is used up. -/
lemma runsOut_apply {f : Expr} {args : List Expr} {st₁ st₂ : Store} {v : Value} {vs : List Value}
    (hquote : f.isQuoteName = false) (hf : f.eval d s st = .ok v st₁)
    (hargs : evalExprs (evalBlock d) s args st₁ = .ok vs st₂)
    (h : applyWith (evalBlock d) v vs st₂ = .tooDeep) :
    RunsOut ⟨d, s, .expr (.call f args), st⟩ := by
  have settled (v : Value) (st : Store) : settle v st ≠ .tooDeep :=
    (Blind.settle v.within_all).ne_tooDeep st
  cases v with
  | function c =>
    by_cases hlen : vs.length = c.params.length
    · cases d with
      | zero => exact .inl (.body hquote hf hargs hlen)
      | succ d =>
        rw [applyWith_function hlen, bind_eq_tooDeep] at h
        rcases h with h | ⟨w, st₃, -, h⟩
        · exact .inr ⟨_, .inr (.body hquote hf hargs hlen), h⟩
        · exact absurd h (settled _ st₃)
    · rw [applyWith, if_neg hlen] at h
      cases h
  | builtin b =>
    rw [applyWith, bind_eq_tooDeep] at h
    rcases h with h | ⟨w, st₃, -, h⟩
    · exact absurd h ((b.call_blind fun v _ => v.within_all).ne_tooDeep st₂)
    · exact absurd h (settled _ st₃)
  | _ => cases h

/-- An expression is too deep because a part is, or because the depth is used up. -/
lemma runsOut_expr {e : Expr} (h : e.evalWith (evalBlock d) s st = .tooDeep) :
    RunsOut ⟨d, s, .expr e, st⟩ := by
  cases e with
  | ident name =>
    rw [Expr.evalWith] at h
    exact absurd h ((nameValue_blind trivial rfl).ne_tooDeep st)
  | int | bool | str =>
    rw [Expr.evalWith] at h
    cases h
  | fnLit | macroLit =>
    rw [Expr.evalWith] at h
    cases h
  | unary op e =>
    rw [Expr.evalWith, bind_eq_tooDeep] at h
    rcases h with h | ⟨v, st₁, -, h⟩
    · exact .inr ⟨_, .inl .unary, h⟩
    · exact absurd h ((op.apply_blind v).ne_tooDeep st₁)
  | binary op l r =>
    rw [Expr.evalWith, bind_eq_tooDeep] at h
    rcases h with h | ⟨v, st₁, hl, h⟩
    · exact .inr ⟨_, .inl .left, h⟩
    · rcases bind_eq_tooDeep.mp h with h | ⟨w, st₂, -, h⟩
      · exact .inr ⟨_, .inl (.right hl), h⟩
      · exact absurd h ((op.apply_blind v w).ne_tooDeep st₂)
  | cond c yes no =>
    cases no with
    | none =>
      rw [Expr.evalWith, bind_eq_tooDeep] at h
      rcases h with h | ⟨t, st₁, hc, h⟩
      · exact .inr ⟨_, .inl .test, h⟩
      · split at h
        · rename_i ht
          exact .inr ⟨_, .inr (.yes hc ht), h⟩
        · cases h
    | some no =>
      rw [Expr.evalWith, bind_eq_tooDeep] at h
      rcases h with h | ⟨t, st₁, hc, h⟩
      · exact .inr ⟨_, .inl .test, h⟩
      · split at h
        · rename_i ht
          exact .inr ⟨_, .inr (.yes hc ht), h⟩
        · rename_i ht
          exact .inr ⟨_, .inr (.no hc (by simpa using ht)), h⟩
  | call f args =>
    rw [Expr.evalWith] at h
    split at h
    · rename_i hquote
      unfold quoteCallWith at h
      split at h
      · rw [quoteWith, Expr.replaceM_eq, bind_assoc, bind_eq_tooDeep] at h
        rcases h with h | ⟨_, _, -, h⟩
        · exact .inr ⟨_, .inr (.quoted hquote), h⟩
        · cases h
      · cases h
    · rename_i hquote
      have hquote : f.isQuoteName = false := by simpa using hquote
      rcases bind_eq_tooDeep.mp h with h | ⟨v, st₁, hf, h⟩
      · exact .inr ⟨_, .inl (.callee hquote), h⟩
      · rcases bind_eq_tooDeep.mp h with h | ⟨vs, st₂, hargs, h⟩
        · exact .inr ⟨_, .inr (.args hquote hf), h⟩
        · exact runsOut_apply hquote hf hargs h
  | array items =>
    rw [Expr.evalWith, bind_eq_tooDeep] at h
    rcases h with h | ⟨_, _, -, h⟩
    · exact .inr ⟨_, .inr .items, h⟩
    · cases h
  | hash pairs =>
    rw [Expr.evalWith, bind_eq_tooDeep] at h
    rcases h with h | ⟨_, _, -, h⟩
    · exact .inr ⟨_, .inr .pairs, h⟩
    · cases h
  | index b p =>
    rw [Expr.evalWith, bind_eq_tooDeep] at h
    rcases h with h | ⟨v, st₁, hb, h⟩
    · exact .inr ⟨_, .inl .base, h⟩
    · rcases bind_eq_tooDeep.mp h with h | ⟨w, st₂, -, h⟩
      · exact .inr ⟨_, .inl (.position hb), h⟩
      · exact absurd h ((indexInto_blind v.within_all w).ne_tooDeep st₂)

end

/-! ## Points -/

/-- **Why an evaluation is too deep**: the depth is used up, or a part is too deep. -/
theorem exhausted_or_part {P : Point} (h : P.outcome = .tooDeep) : P.RunsOut := by
  obtain ⟨d, s, node, st⟩ := P
  cases node with
  | expr e => exact runsOut_expr h
  | stmt stmt => exact runsOut_stmt h
  | stmts before ss => exact runsOut_stmts h
  | exprs es => exact runsOut_exprs h
  | entries before rest => exact runsOut_entries h
  | splices hs => exact runsOut_splices h

/-- **An evaluation that is too deep** reaches a point where the depth is used up.

**Proof sketch.** Induction over points. -/
theorem reaches_exhausted {P : Point} (h : P.outcome = .tooDeep) :
    ∃ Q, P.Reaches Q ∧ Q.Exhausted := by
  induction P using Point.induction with
  | h P ih =>
    rcases exhausted_or_part h with hP | ⟨P', hpart, h'⟩
    · exact ⟨P, .refl, hP⟩
    · obtain ⟨Q, hreach, hQ⟩ := ih P' hpart h'
      exact ⟨Q, .head hpart hreach, hQ⟩

end Point

end QuoteLang
