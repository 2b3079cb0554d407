import QuoteLang.Proofs.Data
import QuoteLang.Proofs.Expansion

set_option relaxedAutoImplicit false
set_option autoImplicit false

/-!
# Traces of sessions

A session takes one text after the other, and each text begins several evaluations: that of the body
of every macro that is expanded, and that of the program that is left. What holds of all data at the
beginning of a session holds of everything that any of these evaluations computes and binds.

## Main definitions

* `Session.Step`, `Session.Trace` — a session takes a text, or several of them.
* `Expands` — the evaluations that an expansion along a list begins.
* `Session.Step.Begins`, `Session.Step.Meets` — the evaluations that a text begins, and the operands
  that are met in them.

## Main results

* `Session.Step.Runs.cases` — what a step can do.
* `Session.Trace.forall_of_step` — what a step shows while it keeps an invariant, all steps show.
* `Session.Step.data`, `Session.Step.Meets.value` — what a text answers and binds has a property
  that is hereditary, and so have the operands that are met.
* `Session.Trace.hasAll` — so it is in all steps of a session.
-/

namespace QuoteLang

open Run

/-! ## Steps -/

namespace Session

/-- A session takes a text: the depth and the text, the session before it, the answer, and the
session after it. -/
structure Step where
  /-- How deeply calls may be nested. -/
  depth : Nat
  /-- The text. -/
  source : String
  /-- The session that takes it. -/
  before : Session
  /-- The value or the failure. -/
  answer : Except HostError Value
  /-- The session that takes the next text. -/
  after : Session

/-- The answer and the session after a step are those of the session that takes the text. -/
def Step.Runs (step : Step) : Prop :=
  step.before.run step.depth step.source = some (step.answer, step.after)

/-- **What a step can do**: the text is no program; or its expansion fails; or the program that is
left is evaluated. -/
theorem Step.Runs.cases {step : Step} (h : step.Runs) :
    (∃ e, parse step.source = .error e ∧ step.answer = .error (.parse e) ∧
      step.after = step.before) ∨
    (∃ program f st, parse step.source = .ok program ∧
      expand step.depth step.before.macros program step.before.store = .fault f st ∧
      step.answer = .error (.expansion f) ∧ step.after = { step.before with store := st }) ∨
    ∃ program program' st v st', parse step.source = .ok program ∧
      expand step.depth step.before.macros program step.before.store = .ok program' st ∧
      (program'.eval step.depth step.before.globals st).value? = some (v, st') ∧
      step.answer = .ok v ∧ step.after = { step.before with store := st' } := by
  unfold Runs Session.run at h
  split at h
  case h_1 e hparse =>
    obtain ⟨hanswer, hafter⟩ := Prod.mk.inj (Option.some.inj h)
    exact .inl ⟨e, hparse, hanswer.symm, hafter.symm⟩
  case h_2 program hparse =>
    split at h
    case h_1 hexpand => cases h
    case h_2 f st hexpand =>
      obtain ⟨hanswer, hafter⟩ := Prod.mk.inj (Option.some.inj h)
      exact .inr (.inl ⟨program, f, st, hparse, hexpand, hanswer.symm, hafter.symm⟩)
    case h_3 program' st hexpand =>
      obtain ⟨⟨v, st'⟩, hvalue, h⟩ := Option.map_eq_some_iff.mp h
      obtain ⟨hanswer, hafter⟩ := Prod.mk.inj h
      exact .inr (.inr ⟨program, program', st, v, st', hparse, hexpand, hvalue, hanswer.symm,
        hafter.symm⟩)

/-- The steps of a session that takes one text after the other. -/
inductive Trace : Session → List Step → Prop
  /-- No text is taken. -/
  | nil (s : Session) : Trace s []
  /-- A text is taken, and then others. -/
  | cons {step : Step} {steps : List Step} (hrun : step.Runs) (rest : Trace step.after steps) :
      Trace step.before (step :: steps)

/-- **Invariants of sessions**: what every step shows as long as it begins with an invariant, which
it then keeps, holds of all steps. -/
theorem Trace.forall_of_step {I : Session → Prop} {Q : Step → Prop} {s : Session}
    {steps : List Step} (h : Trace s steps) (hs : I s)
    (hstep : ∀ step ∈ steps, step.Runs → I step.before → Q step ∧ I step.after) :
    ∀ step ∈ steps, Q step := by
  induction h with
  | nil s => exact List.forall_mem_nil _
  | cons hrun rest ih =>
    rw [List.forall_mem_cons] at hstep
    obtain ⟨hshown, hafter⟩ := hstep.1 hrun hs
    exact List.forall_mem_cons.mpr ⟨hshown, ih hafter hstep.2⟩

end Session

/-! ## What a text begins -/

/-- The evaluations that an expansion along a list begins: those of the bodies of the macros that
are called in it. -/
inductive Expands (macros : ScopeId) : Nat → List Expr → Store → Point → Prop
  /-- The body of the macro that is called first. -/
  | body {d : Nat} {name : String} {args es : List Expr} {st : Store} {c : Closure}
      (hc : st.lookup macros name = some (.macroFn c)) (hlen : args.length = c.params.length) :
      Expands macros (d + 1) (.call (.ident name) args :: es) st ⟨d, st.scopes.size,
        .stmts .null c.body,
        (st.enclose c.scope).2.bindAll st.scopes.size (c.params.zip (args.map .quote))⟩
  /-- The bodies of the macros that are called after the first expression. -/
  | next {depth : Nat} {e a : Expr} {es : List Expr} {st st₁ : Store} {P : Point}
      (ha : expandAt depth macros e st = .ok a st₁) (hP : Expands macros depth es st₁ P) :
      Expands macros depth (e :: es) st P

namespace Session.Step

/-- The evaluations that a text begins. -/
inductive Begins (step : Step) : Point → Prop
  /-- The body of a macro that is expanded. -/
  | macroBody {program program₁ : Program} {st₁ : Store} {P : Point}
      (hparse : parse step.source = .ok program)
      (hdefine : (program.defineMacros step.before.macros : Run ExpansionFault Program)
        step.before.store = .ok program₁ st₁)
      (hP : Expands step.before.macros step.depth (handedOverStmts program₁) st₁ P) : Begins step P
  /-- The program that is left after the expansion. -/
  | program {program program' : Program} {st : Store} (hparse : parse step.source = .ok program)
      (hexpand : expand step.depth step.before.macros program step.before.store = .ok program' st) :
      Begins step ⟨step.depth, step.before.globals, .stmts .null program', st⟩

/-- An operand is met in one of the evaluations that a text begins. -/
def Meets (step : Step) (Q : Point) : Prop :=
  ∃ P, step.Begins P ∧ P.Meets Q

/-- In all evaluations that a text begins, the choices that are met as operands settle on values
that have a property. -/
def Settles (V : Value → Prop) (step : Step) : Prop :=
  ∀ P, step.Begins P → P.Settles V

/-- Everything has a property in a step: its answer unless it is an error, what is bound after it,
and the operands that are met. -/
structure HasAll (V : Value → Prop) (step : Step) : Prop where
  /-- What is answered has it. -/
  answer : ∀ v, step.answer = .ok v → V v ∨ v.isError = true
  /-- What is bound after the step has it. -/
  store : step.after.store.All V
  /-- What is met as an operand has it. -/
  operand : ∀ d s e st v st', step.Meets ⟨d, s, .expr e, st⟩ → e.eval d s st = .ok v st' → V v

end Session.Step

/-! ## Data -/

section

variable {V : Value → Prop} (hV : Hereditary V) {st : Store}

/-- A new session binds nothing. -/
lemma Session.all_new : Session.new.store.All V := by
  have hempty : Store.empty.All V := by
    intro i s hs
    rw [Store.empty, Array.getElem?_empty] at hs
    cases hs
  exact (hempty.newScope none).newScope none

include hV

/-- Defining macros binds nothing but macros. -/
lemma Program.defineMacros_ensures {ε : Type} (macros : ScopeId)
    (program : Program) (hst : st.All V) :
    (program.defineMacros macros : Run ε Program).Ensures st (fun _ st' => st'.All V)
      (Store.All V) := by
  fun_induction Program.defineMacros (ε := ε) macros program generalizing st with
  | case1 => exact .pure hst
  | case2 name params body rest ih =>
    exact .bind (.bind (ih ((hst.of_scopes_eq rfl).bind macros name (hV.macroFn _))))
  | case3 s rest _ ih => exact .andThen (ih hst) fun _ _ hst' => .pure hst'

/-- The body of a macro begins with data: its parameters are bound to quotations. -/
lemma ready_macroBody (hst : st.All V) (d : Nat) (c : Closure) (args : List Expr) :
    Point.Ready V ⟨d, st.scopes.size, .stmts .null c.body,
      (st.enclose c.scope).2.bindAll st.scopes.size (c.params.zip (args.map .quote))⟩ := by
  refine ⟨hst.call fun v hv => ?_, .inl hV.null⟩
  obtain ⟨e, -, rfl⟩ := List.mem_map.mp hv
  exact hV.quote e

/-- The expansion of an expression binds data. -/
lemma expandAt_ensures {macros : ScopeId} {depth : Nat} {e : Expr} {es : List Expr}
    (hst : st.All V) (hsettles : ∀ P, Expands macros depth (e :: es) st P → P.Settles V) :
    (expandAt depth macros e).Ensures st (fun _ st' => st'.All V) (Store.All V) := by
  by_cases hcall : e.IsMacroCall st macros
  · obtain ⟨name, args, c, rfl, hc⟩ := hcall.exists_call
    rw [Ensures, expandAt_of_lookup hc]
    show (expandCall depth name c args).Ensures st (fun _ st' => st'.All V) (Store.All V)
    unfold expandCall
    split
    · rename_i hlen
      refine .bind (.attempt (bodyValue_ensures ?_))
      cases depth with
      | zero => trivial
      | succ d =>
        have hbody := hsettles _ (.body hc hlen)
        refine (Point.ensures_yields hV _ (ready_macroBody hV hst d c args) hbody).mono ?_
          fun _ hst' _ => hst'
        rintro (v : Value) st' ⟨-, hst'⟩
        refine (Still.settle v.unwrapReturn).ensures (fun w _ => ?_) fun _ => hst'
        cases w <;> exact hst'
    · exact hst
  · rw [Ensures, expandAt_of_not_isMacroCall hcall]
    exact hst

/-- The expansion along a list binds data. -/
lemma mapM_expandAt_ensures {macros : ScopeId} {depth : Nat} {es : List Expr}
    (hst : st.All V) (hsettles : ∀ P, Expands macros depth es st P → P.Settles V) :
    (es.mapM (expandAt depth macros)).Ensures st (fun _ st' => st'.All V) (Store.All V) := by
  induction es generalizing st with
  | nil =>
    rw [List.mapM_nil]
    exact .pure hst
  | cons e es ih =>
    rw [List.mapM_cons]
    refine .andThen (expandAt_ensures hV hst hsettles).with_eq ?_
    rintro a st₁ ⟨ha, hst₁⟩
    refine .andThen (ih hst₁ fun P hP => hsettles P (.next ha hP)) ?_
    exact fun _ _ hst₂ => .pure hst₂

/-- Everything is data where the body of a macro is evaluated. -/
lemma Expands.ready {macros : ScopeId} {depth : Nat} {es : List Expr} {P : Point}
    (h : Expands macros depth es st P) (hst : st.All V)
    (hsettles : ∀ P, Expands macros depth es st P → P.Settles V) : P.Ready V := by
  induction h with
  | body hc hlen => exact ready_macroBody hV hst _ _ _
  | next ha hP ih =>
    exact ih ((expandAt_ensures hV hst hsettles).of_ok ha) fun P hP => hsettles P (.next ha hP)

namespace Session.Step

variable {step : Step}

/-- The expansion of a text binds data. -/
lemma expand_ensures {program : Program} (hparse : parse step.source = .ok program)
    (hst : step.before.store.All V) (hsettles : step.Settles V) :
    (expand step.depth step.before.macros program).Ensures step.before.store
      (fun _ st => st.All V) (Store.All V) := by
  refine .andThen (program.defineMacros_ensures hV _ hst).with_eq ?_
  rintro program₁ st₁ ⟨hdefine, hst₁⟩
  rw [Program.expandMacros, Block.replaceM_eq]
  refine .andThen (mapM_expandAt_ensures hV hst₁ fun P hP => ?_) ?_
  · exact hsettles P (.macroBody hparse hdefine hP)
  · exact fun _ _ hst₂ => .pure hst₂

/-- Everything is data where an evaluation begins that a text begins. -/
lemma Begins.ready {P : Point} (h : step.Begins P) (hst : step.before.store.All V)
    (hsettles : step.Settles V) : P.Ready V := by
  cases h with
  | macroBody hparse hdefine hP =>
    have hst₁ := (Program.defineMacros_ensures hV _ _ hst).of_ok hdefine
    exact hP.ready hV hst₁ fun Q hQ => hsettles Q (.macroBody hparse hdefine hQ)
  | program hparse hexpand =>
    exact ⟨(expand_ensures hV hparse hst hsettles).of_ok hexpand, .inl hV.null⟩

/-- **Operands that are met are data**, and so is what is bound then. -/
theorem Meets.value {d : Nat} {s : ScopeId} {e : Expr} {v : Value} {st' : Store}
    (h : step.Meets ⟨d, s, .expr e, st⟩) (hst : step.before.store.All V)
    (hsettles : step.Settles V) (he : e.eval d s st = .ok v st') : V v ∧ st'.All V := by
  obtain ⟨P, hbegins, hmeets⟩ := h
  exact Point.Meets.value hV (hbegins.ready hV hst hsettles) (hsettles P hbegins) hmeets he

/-- The program that is left is evaluated to data. -/
lemma eval_ensures {program program' : Program} (hparse : parse step.source = .ok program)
    (hexpand : expand step.depth step.before.macros program step.before.store = .ok program' st)
    (hst : step.before.store.All V) (hsettles : step.Settles V) :
    (program'.eval step.depth step.before.globals).Ensures st (fun v st' => V v ∧ st'.All V)
      (Store.All V) := by
  have hbegins := Begins.program hparse hexpand
  have hyields := Point.ensures_yields hV _ (hbegins.ready hV hst hsettles) (hsettles _ hbegins)
  refine .andThen hyields ?_
  rintro (v : Value) st' ⟨hv, hst'⟩
  exact (Still.settle _).ensures_gives (gives_settle (Value.Out.unwrapReturn hV hv)) hst'

/-- **What a text answers and binds is data**, unless it answers an error. -/
theorem data (hrun : step.Runs) (hst : step.before.store.All V) (hsettles : step.Settles V) :
    (∀ v, step.answer = .ok v → V v ∨ v.isError = true) ∧ step.after.store.All V := by
  rcases hrun.cases with ⟨e, hparse, hanswer, hafter⟩ |
    ⟨program, f, st, hparse, hexpand, hanswer, hafter⟩ |
    ⟨program, program', st, v, st', hparse, hexpand, hvalue, hanswer, hafter⟩
  · rw [hanswer, hafter]
    exact ⟨nofun, hst⟩
  · rw [hanswer, hafter]
    exact ⟨nofun, (expand_ensures hV hparse hst hsettles).of_fault hexpand⟩
  · have heval := eval_ensures hV hparse hexpand hst hsettles
    rw [hanswer, hafter]
    rcases heval.of_value? hvalue with ⟨hv, hst'⟩ | ⟨herror, hst'⟩
    · refine ⟨fun w hw => ?_, hst'⟩
      cases hw
      exact .inl hv
    · refine ⟨fun w hw => ?_, hst'⟩
      cases hw
      exact .inr herror

end Session.Step

/-! ## Traces -/

namespace Session

/-- **Sessions have the property throughout**, if the choices that are met as operands have it. -/
theorem Trace.hasAll {steps : List Step} (h : Trace new steps)
    (hsettles : ∀ step ∈ steps, step.Settles V) : ∀ step ∈ steps, step.HasAll V := by
  refine h.forall_of_step (I := fun s => s.store.All V) all_new fun step hmem hrun hst => ?_
  have hdata := step.data hV hrun hst (hsettles step hmem)
  exact ⟨⟨hdata.1, hdata.2, fun d s e st v st' hmeets he =>
    (hmeets.value hV hst (hsettles step hmem) he).1⟩, hdata.2⟩

end Session

end

end QuoteLang
