import QuoteLang.Proofs.Replace
import QuoteLang.Session

set_option relaxedAutoImplicit false
set_option autoImplicit false

/-!
# Larger depths

An evaluation that nests calls more deeply than it may is not decided. What one depth decides, every
larger depth decides in the same way. So an evaluation that is decided at all ends in one way only,
and evaluations that are decided at different depths are decided together at the largest of them.

## Main definitions

* `Run.Approximates` — a run ends as another one does, wherever it is not too deep.

## Main results

* `Run.Approximates.bind` — runs in sequence approximate one another.
* `evalBlock_approximates`, `Expr.eval_approximates` — evaluation up to a depth approximates
  evaluation up to a larger one.
* `Session.run_of_le` — a text that is taken at a depth is taken in the same way at every larger
  one.
-/

namespace QuoteLang

/-! ## Runs that approximate one another -/

/-- A run **approximates** another one if it ends as the other does, wherever it is not too deep. -/
def Run.Approximates {ε α : Type} (x y : Run ε α) : Prop :=
  ∀ st, x st ≠ .tooDeep → y st = x st

namespace Run.Approximates

variable {ε α β : Type} {x y : Run ε α}

/-- A run approximates itself. -/
lemma refl (x : Run ε α) : x.Approximates x := fun _ _ => rfl

/-- The other run ends with the same value. -/
lemma of_ok (h : x.Approximates y) {st st' : Store} {a : α} (hx : x st = .ok a st') :
    y st = .ok a st' :=
  (h st (by rw [hx]; nofun)).trans hx

/-- The other run ends with the same fault. -/
lemma of_fault (h : x.Approximates y) {st st' : Store} {e : ε} (hx : x st = .fault e st') :
    y st = .fault e st' :=
  (h st (by rw [hx]; nofun)).trans hx

/-- **Runs in sequence** approximate one another if the first runs do, and the second ones do. -/
theorem bind {f g : α → Run ε β} (h : x.Approximates y) (hfg : ∀ a, (f a).Approximates (g a)) :
    (x >>= f).Approximates (y >>= g) := by
  intro st hst
  change Run.bind x f st ≠ _ at hst
  change Run.bind y g st = Run.bind x f st
  unfold Run.bind at hst ⊢
  cases hx : x st with
  | ok a st₁ =>
    rw [hx] at hst
    rw [h.of_ok hx]
    exact hfg a st₁ hst
  | fault e st₁ => rw [h.of_fault hx]
  | tooDeep =>
    rw [hx] at hst
    exact absurd rfl hst

/-- Going on after a fault. -/
lemma attempt {δ : Type} (h : x.Approximates y) :
    (Run.attempt x : Run δ (Except ε α)).Approximates (Run.attempt y) := by
  intro st hst
  unfold Run.attempt at hst ⊢
  cases hx : x st with
  | ok a st₁ => rw [h.of_ok hx]
  | fault e st₁ => rw [h.of_fault hx]
  | tooDeep =>
    rw [hx] at hst
    exact absurd rfl hst

/-- Calling functions along a list, if each call approximates the other. -/
lemma mapM {γ : Type} {f g : γ → Run ε α} {cs : List γ}
    (h : ∀ c ∈ cs, (f c).Approximates (g c)) : (cs.mapM f).Approximates (cs.mapM g) := by
  induction cs with
  | nil => exact .refl _
  | cons c cs ih =>
    rw [List.forall_mem_cons] at h
    rw [List.mapM_cons, List.mapM_cons]
    exact .bind h.1 fun b => .bind (ih h.2) fun bs => .refl _

end Run.Approximates

/-! ## Evaluation, given what lies deeper -/

section

variable {deeper deeper' : Deeper} {scope : ScopeId}

/-- Statements, if each of them approximates itself. -/
lemma evalStmts_approximates {ss : List Stmt}
    (h : ∀ s ∈ ss, (s.evalWith deeper scope).Approximates (s.evalWith deeper' scope))
    (before : Value) :
    (evalStmts deeper scope before ss).Approximates (evalStmts deeper' scope before ss) := by
  induction ss generalizing before with
  | nil =>
    rw [evalStmts, evalStmts]
    exact .refl _
  | cons s ss ih =>
    rw [List.forall_mem_cons] at h
    rw [evalStmts, evalStmts]
    refine .bind h.1 fun v => ?_
    split
    · exact .refl _
    · exact ih h.2 v

/-- The expressions of a list, if each of them approximates itself. -/
lemma evalExprs_approximates {es : List Expr}
    (h : ∀ e ∈ es, (e.evalWith deeper scope).Approximates (e.evalWith deeper' scope)) :
    (evalExprs deeper scope es).Approximates (evalExprs deeper' scope es) := by
  induction es with
  | nil =>
    rw [evalExprs, evalExprs]
    exact .refl _
  | cons e es ih =>
    rw [List.forall_mem_cons] at h
    rw [evalExprs, evalExprs]
    exact .bind h.1 fun v => .bind (ih h.2) fun vs => .refl _

/-- The entries of a hash, if each key and each value approximates itself. -/
lemma evalEntries_approximates {entries : List (Expr × Expr)}
    (h : ∀ e ∈ entries, (e.1.evalWith deeper scope).Approximates (e.1.evalWith deeper' scope) ∧
      (e.2.evalWith deeper scope).Approximates (e.2.evalWith deeper' scope))
    (before : List (Key × Value)) :
    (evalEntries deeper scope before entries).Approximates
      (evalEntries deeper' scope before entries) := by
  induction entries generalizing before with
  | nil =>
    rw [evalEntries, evalEntries]
    exact .refl _
  | cons entry entries ih =>
    obtain ⟨k, e⟩ := entry
    rw [List.forall_mem_cons] at h
    rw [evalEntries, evalEntries]
    refine .bind h.1.1 fun kv => ?_
    split
    · exact .refl _
    · exact .bind h.1.2 fun v => ih h.2 _

variable (hdeeper : ∀ block scope, (deeper block scope).Approximates (deeper' block scope))

include hdeeper

/-- The body of a function. -/
lemma bodyValue_approximates (c : Closure) (args : List Value) :
    (bodyValue deeper c args).Approximates (bodyValue deeper' c args) := by
  refine .bind (.refl _) fun scope => .bind (.refl _) fun _ => ?_
  exact .bind (hdeeper _ scope) fun v => .refl _

/-- A call. -/
lemma applyWith_approximates (callee : Value) (args : List Value) :
    (applyWith deeper callee args).Approximates (applyWith deeper' callee args) := by
  unfold applyWith
  split
  · split
    · exact bodyValue_approximates hdeeper _ args
    · exact .refl _
  · exact .refl _
  · exact .refl _

/-- What stands for an expression in a quotation. -/
lemma spliceWith_approximates (e : Expr) :
    (spliceWith deeper scope e).Approximates (spliceWith deeper' scope e) := by
  unfold spliceWith
  split
  · exact .refl _
  · exact .bind (hdeeper _ _) fun v => .refl _

/-- A quotation. -/
lemma quoteWith_approximates (e : Expr) :
    (quoteWith deeper scope e).Approximates (quoteWith deeper' scope e) := by
  rw [quoteWith, quoteWith, Expr.replaceM_eq, Expr.replaceM_eq]
  refine .bind (.bind (.mapM fun h _ => spliceWith_approximates hdeeper h) fun as => ?_) fun e => ?_
  · exact .refl _
  · exact .refl _

/-- Every expression and every statement approximates itself if what lies deeper does. -/
lemma evalWith_approximates :
    (∀ (e : Expr) scope, (e.evalWith deeper scope).Approximates (e.evalWith deeper' scope)) ∧
      ∀ (s : Stmt) scope, (s.evalWith deeper scope).Approximates (s.evalWith deeper' scope) := by
  apply Expr.induction
  case ident | int | bool | str =>
    intro a scope
    rw [Expr.evalWith, Expr.evalWith]
    exact .refl _
  case unary =>
    intro op e ih scope
    rw [Expr.evalWith, Expr.evalWith]
    exact .bind (ih scope) fun v => .refl _
  case binary =>
    intro op l r ihl ihr scope
    rw [Expr.evalWith, Expr.evalWith]
    exact .bind (ihl scope) fun v => .bind (ihr scope) fun w => .refl _
  case cond =>
    intro c yes no ihc ihyes ihno scope
    have hyes := evalStmts_approximates fun s hs => ihyes s hs scope
    cases no with
    | none =>
      rw [Expr.evalWith, Expr.evalWith]
      refine .bind (ihc scope) fun t => ?_
      split
      · exact hyes _
      · exact .refl _
    | some no =>
      rw [Expr.evalWith, Expr.evalWith]
      refine .bind (ihc scope) fun t => ?_
      split
      · exact hyes _
      · exact evalStmts_approximates (fun s hs => ihno no rfl s hs scope) _
  case fnLit | macroLit =>
    intro params body _ scope
    rw [Expr.evalWith, Expr.evalWith]
    exact .refl _
  case call =>
    intro f args ihf ihargs scope
    rw [Expr.evalWith, Expr.evalWith]
    split
    · unfold quoteCallWith
      split
      · exact quoteWith_approximates hdeeper _
      · exact .refl _
    · refine .bind (ihf scope) fun v => ?_
      refine .bind (evalExprs_approximates fun e he => ihargs e he scope) fun vs => ?_
      exact applyWith_approximates hdeeper v vs
  case array =>
    intro items ih scope
    rw [Expr.evalWith, Expr.evalWith]
    exact .bind (evalExprs_approximates fun e he => ih e he scope) fun vs => .refl _
  case hash =>
    intro entries ih scope
    rw [Expr.evalWith, Expr.evalWith]
    refine .bind (evalEntries_approximates (fun e he => ?_) _) fun pairs => .refl _
    exact ⟨(ih e he).1 scope, (ih e he).2 scope⟩
  case index =>
    intro base position ihb ihp scope
    rw [Expr.evalWith, Expr.evalWith]
    exact .bind (ihb scope) fun b => .bind (ihp scope) fun p => .refl _
  case letBind =>
    intro name e ih scope
    rw [Stmt.evalWith, Stmt.evalWith]
    exact .bind (ih scope) fun v => .refl _
  case ret =>
    intro value ih scope
    cases value with
    | none =>
      rw [Stmt.evalWith, Stmt.evalWith]
      exact .refl _
    | some e =>
      rw [Stmt.evalWith, Stmt.evalWith]
      exact .bind (ih e rfl scope) fun v => .refl _
  case expr =>
    intro e ih scope
    rw [Stmt.evalWith, Stmt.evalWith]
    exact ih scope

end

/-! ## Evaluation up to a depth -/

/-- **A larger depth decides in the same way** how a block ends.

**Proof sketch.** Induction on the depth. What lies deeper takes one unit of both depths. -/
theorem evalBlock_approximates {d d' : Nat} (h : d ≤ d') (block : Block) (scope : ScopeId) :
    (evalBlock d block scope).Approximates (evalBlock d' block scope) := by
  induction d generalizing d' block scope with
  | zero => exact fun _ hdeep => absurd rfl hdeep
  | succ d ih =>
    obtain ⟨d', rfl⟩ : ∃ n, d' = n + 1 := ⟨d' - 1, by omega⟩
    have hdeeper := evalWith_approximates fun block scope =>
      ih (Nat.le_of_succ_le_succ h) block scope
    exact evalStmts_approximates (fun s _ => hdeeper.2 s scope) _

/-- **A larger depth decides in the same way** how an expression ends. -/
theorem Expr.eval_approximates {d d' : Nat} (h : d ≤ d') (e : Expr) (scope : ScopeId) :
    (e.eval d scope).Approximates (e.eval d' scope) :=
  (evalWith_approximates (evalBlock_approximates h)).1 e scope

/-! ## Expansion and sessions -/

section

variable {d d' : Nat} (h : d ≤ d')

include h

/-- A larger depth decides in the same way how a program ends. -/
lemma Program.eval_approximates (program : Program) (scope : ScopeId) :
    (program.eval d scope).Approximates (program.eval d' scope) := by
  have heach : ∀ s ∈ program, (s.evalWith (evalBlock d) scope).Approximates
      (s.evalWith (evalBlock d') scope) :=
    fun s _ => (evalWith_approximates (evalBlock_approximates h)).2 s scope
  exact .bind (evalStmts_approximates heach _) fun v => .refl _

/-- A larger depth decides in the same way what stands for an expression after expansion. -/
lemma expandAt_approximates (macros : ScopeId) (e : Expr) :
    (expandAt d macros e).Approximates (expandAt d' macros e) := by
  have hcall (name : String) (c : Closure) (args : List Expr) :
      (expandCall d name c args).Approximates (expandCall d' name c args) := by
    unfold expandCall
    split
    · have hbody := bodyValue_approximates (evalBlock_approximates h) c (args.map .quote)
      exact .bind (.attempt hbody) fun r => .refl _
    · exact .refl _
  unfold expandAt
  split
  · refine .bind (.refl _) fun v => ?_
    split
    · exact hcall _ _ _
    · exact .refl _
  · exact .refl _

/-- A larger depth decides in the same way how the expansion of a program ends. -/
lemma Session.expand_approximates (macros : ScopeId) (program : Program) :
    (Session.expand d macros program).Approximates (Session.expand d' macros program) := by
  refine .bind (.refl _) fun program' => ?_
  rw [Program.expandMacros, Program.expandMacros, Block.replaceM_eq, Block.replaceM_eq]
  exact .bind (.mapM fun e _ => expandAt_approximates h macros e) fun es => .refl _

/-- **A text that is taken at a depth is taken in the same way at every larger one.** -/
theorem Session.run_of_le {s s' : Session} {source : String} {answer : Except HostError Value}
    (hrun : s.run d source = some (answer, s')) : s.run d' source = some (answer, s') := by
  unfold Session.run at hrun ⊢
  split at hrun
  · exact hrun
  · rename_i program hparse
    have hexpand := expand_approximates h s.macros program
    split at hrun
    · cases hrun
    · rename_i hfault
      simp only [hexpand.of_fault hfault]
      exact hrun
    · rename_i program' st hok
      have heval : program'.eval d s.globals st ≠ .tooDeep := by
        intro hdeep
        rw [hdeep] at hrun
        cases hrun
      simp only [hexpand.of_ok hok, Program.eval_approximates h program' s.globals st heval]
      exact hrun

end

end QuoteLang
