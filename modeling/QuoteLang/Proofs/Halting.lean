import QuoteLang.Proofs.Depth
import QuoteLang.Proofs.Nesting
import QuoteLang.Proofs.Trace

set_option relaxedAutoImplicit false
set_option autoImplicit false

/-!
# Texts without function literals

A session that takes no text with a function literal never makes a function, and every text comes to
an end: reading it, defining and expanding its macros, and evaluating what is left. A macro may
stand for a call of itself, but what stands for a call is not expanded again; and what is left after
the expansion is a tree, which is evaluated once.

## Main definitions

* `Run.Halts` — runs up to a depth which end in the same way at all depths that are large enough.
* `HasNoFunctions` — a text without function literals.
* `Session.Step.MakesNoFunction` — no function is made, put away or answered when a text is taken.

## Main results

* `Run.Halts.bind` — runs in sequence halt if each of them does.
* `evalBlock_halts`, `Session.expand_halts` — evaluation and expansion halt.
* `Session.Trace.halts` — texts without function literals come to an end, and make no function.
-/

namespace QuoteLang

open Run

/-- All syntax that is bound in a store is **free of function literals**, and no function is
bound. -/
abbrev Store.FunctionFree (st : Store) : Prop :=
  st.All (Value.Within .noFunctions)

/-! ## Runs that halt -/

/-- Runs up to a depth **halt**: started in a store that is free of function literals, they end in
the same way at all depths that are large enough. At every depth the store stays free of function
literals, and a value has some property. -/
structure Run.Halts {ε α : Type} (Q : α → Prop) (x : Nat → Run ε α) : Prop where
  /-- What holds where a run has ended. -/
  ensures (depth : Nat) {st : Store} (hst : st.FunctionFree) :
    (x depth).Ensures st (fun a st' => Q a ∧ st'.FunctionFree) Store.FunctionFree
  /-- The runs end in the same way, if the depth is large enough. -/
  decided {st : Store} (hst : st.FunctionFree) :
    ∃ least o, o ≠ .tooDeep ∧ ∀ depth ≥ least, x depth st = o

namespace Run.Halts

variable {ε δ α β : Type} {Q : α → Prop} {R : β → Prop} {x : Nat → Run ε α}

/-- A run that does not depend on the depth, and is never too deep. -/
lemma const {y : Run ε α} (h : Blind .noFunctions (fun _ => True) False Q y) :
    Halts Q fun _ => y where
  ensures _ _ hst := h.ensures (fun _ => rfl) hst
  decided {st} hst := by
    refine ⟨0, y st, fun hdeep => ?_, fun _ _ => rfl⟩
    have hagrees := h st st hst.agrees
    rw [hdeep] at hagrees
    cases hagrees
    assumption

/-- **Runs in sequence** halt if the first ones do, and the second ones after what these end
with. -/
theorem bind {f : Nat → α → Run ε β} (hx : Halts Q x) (hf : ∀ a, Q a → Halts R fun d => f d a) :
    Halts R fun d => x d >>= f d where
  ensures depth _ hst := .andThen (hx.ensures depth hst) fun a _ h => (hf a h.1).ensures depth h.2
  decided {st} hst := by
    obtain ⟨d₁, o₁, hne, h₁⟩ := hx.decided hst
    cases o₁ with
    | ok a st₁ =>
      obtain ⟨ha, hst₁⟩ := (hx.ensures d₁ hst).of_ok (h₁ d₁ (Nat.le_refl _))
      obtain ⟨d₂, o₂, hne₂, h₂⟩ := (hf a ha).decided hst₁
      refine ⟨max d₁ d₂, o₂, hne₂, fun depth hle => ?_⟩
      rw [bind_of_ok (h₁ depth (Nat.le_trans (Nat.le_max_left _ _) hle))]
      exact h₂ depth (Nat.le_trans (Nat.le_max_right _ _) hle)
    | fault e st₁ => exact ⟨d₁, .fault e st₁, nofun, fun depth hle => bind_of_fault (h₁ depth hle)⟩
    | tooDeep => exact absurd rfl hne

/-- Calling functions along a list, if each call halts. -/
lemma mapM {γ : Type} {f : Nat → γ → Run ε α} {cs : List γ}
    (h : ∀ c ∈ cs, Halts Q fun d => f d c) :
    Halts (fun as => ∀ a ∈ as, Q a) fun d => cs.mapM (f d) := by
  induction cs with
  | nil => exact .const (.pure (List.forall_mem_nil _))
  | cons c cs ih =>
    rw [List.forall_mem_cons] at h
    simp only [List.mapM_cons]
    refine bind h.1 fun a ha => bind (ih h.2) fun as has => .const (.pure ?_)
    exact List.forall_mem_cons.mpr ⟨ha, has⟩

/-- Going on after a fault. -/
lemma attempt (hx : Halts Q x) :
    Halts (fun r => ∀ a, r = .ok a → Q a)
      fun d => (Run.attempt (x d) : Run δ (Except ε α)) where
  ensures depth _ hst := .attempt ((hx.ensures depth hst).mono
    (fun a _ h => ⟨fun b hb => Except.ok.inj hb ▸ h.1, h.2⟩)
    fun _ h _ => ⟨by simp, h⟩)
  decided {st} hst := by
    obtain ⟨d, o, hne, h⟩ := hx.decided hst
    cases o with
    | ok a st₁ =>
      refine ⟨d, .ok (.ok a) st₁, by simp, fun depth hle => ?_⟩
      rw [Run.attempt, h depth hle]
    | fault e st₁ =>
      refine ⟨d, .ok (.error e) st₁, by simp, fun depth hle => ?_⟩
      rw [Run.attempt, h depth hle]
    | tooDeep => exact absurd rfl hne

/-- Runs that are one deeper halt as well. -/
lemma succ (hx : Halts Q x) : Halts Q fun d => x (d + 1) where
  ensures depth _ hst := hx.ensures (depth + 1) hst
  decided {st} hst := by
    obtain ⟨d, o, hne, h⟩ := hx.decided hst
    exact ⟨d, o, hne, fun depth hle => h (depth + 1) (Nat.le_succ_of_le hle)⟩

end Run.Halts

/-! ## Evaluation -/

/-- **The evaluation of a block halts** that is free of function literals. -/
theorem evalBlock_halts {block : Block} (h : stmtsWithin .noFunctions block) (i : ScopeId) :
    Halts (Value.Within .noFunctions) fun d => evalBlock d block i where
  ensures depth _ hst := (evalBlock_blind depth block i h trivial).ensures (fun _ => rfl) hst
  decided {st} hst := by
    have hne : evalBlock (sizeOf block + 1) block i st ≠ .tooDeep :=
      Point.ne_tooDeep (P := ⟨sizeOf block, i, .stmts .null block, st⟩)
        ⟨⟨Value.clean_null, h⟩, hst⟩ (Nat.le_refl _)
    exact ⟨_, _, hne, fun depth hle => evalBlock_approximates hle block i st hne⟩

/-- The evaluation of a program halts. -/
lemma Program.eval_halts {program : Program} (h : stmtsWithin .noFunctions program)
    (i : ScopeId) : Halts (Value.Within .noFunctions) fun d => program.eval d i :=
  .bind (evalBlock_halts h i).succ fun _ hv => .const (.settle hv.unwrapReturn)

/-- The body of a function or macro that is free of function literals halts. -/
lemma bodyValue_halts {c : Closure} (hc : c.within .noFunctions) {args : List Value}
    (hargs : ∀ v ∈ args, v.Within .noFunctions) :
    Halts (Value.Within .noFunctions) fun d => bodyValue (evalBlock d) c args := by
  rw [Closure.within, Bool.and_eq_true] at hc
  refine .bind (Q := fun _ => True) (.const (.make fun st st' hst => ⟨hst.size_eq,
    hst.enclose trivial, trivial⟩)) fun i _ => ?_
  refine .bind (Q := fun _ => True) (.const (.update fun st st' hst => hst.bindAll trivial
    fun p hp => hargs p.2 (List.of_mem_zip hp).2)) fun _ _ => ?_
  exact .bind (evalBlock_halts hc.2 i) fun v hv => .const (.settle hv.unwrapReturn)

/-! ## Expansion -/

/-- The expansion of a call of a macro halts. -/
lemma expandCall_halts (name : String) {c : Closure} (hc : c.within .noFunctions)
    {args : List Expr} (hargs : ∀ e ∈ args, e.within .noFunctions) :
    Halts (fun e => e.within .noFunctions) fun d => expandCall d name c args := by
  unfold expandCall
  split
  · refine .bind (.attempt (bodyValue_halts hc fun v hv => ?_)) fun r hr => ?_
    · obtain ⟨e, he, rfl⟩ := List.mem_map.mp hv
      exact Value.clean_quote_iff.mpr (hargs e he)
    · split
      · exact .const (.pure (Value.clean_quote_iff.mp (hr _ rfl)))
      · exact .const (.raise _)
      · exact .const (.raise _)
  · exact .const (.raise _)

/-- The expansion of an expression halts. -/
lemma expandAt_halts (macros : ScopeId) {e : Expr} (he : e.within .noFunctions) :
    Halts (fun e => e.within .noFunctions) fun d => expandAt d macros e := by
  unfold expandAt
  split
  · rename_i name args
    have hargs := he
    rw [Expr.within, Bool.and_eq_true, exprsWithin_iff] at hargs
    refine .bind (Q := fun o => ∀ v ∈ o, v.Within .noFunctions)
      (.const (.get fun st st' hst => hst.lookup trivial rfl)) fun o ho => ?_
    split
    · rename_i c
      have hc := (Value.clean_macroFn_iff.mp (ho _ rfl)).1
      exact expandCall_halts name hc hargs.2
    · exact .const (.pure he)
  · exact .const (.pure he)

/-- Defining the macros of a program leaves one that is made of the same. -/
lemma Program.defineMacros_blind {ε : Type} {V : Vocabulary} {I : ScopeId → Prop} {deep : Prop}
    {macros : ScopeId} (hmacros : I macros) {program : Program} (h : stmtsWithin V program) :
    Blind V I deep (fun p => stmtsWithin V p) (program.defineMacros macros : Run ε Program) := by
  fun_induction Program.defineMacros (ε := ε) macros program with
  | case1 => exact .pure rfl
  | case2 name params body rest ih =>
    simp only [stmtsWithin, Stmt.within, Expr.within, Bool.and_eq_true] at h
    refine .bind (newClosure_blind hmacros h.1.2.1 h.1.2.2) fun c hc => ?_
    refine .bind (.update fun st st' hst => ?_) fun _ _ => ih h.2
    exact hst.bind hmacros name (Value.clean_macroFn_iff.mpr hc)
  | case3 s rest _ ih =>
    rw [stmtsWithin, Bool.and_eq_true] at h
    refine .bind (ih h.2) fun p hp => .pure ?_
    rw [stmtsWithin, Bool.and_eq_true]
    exact ⟨h.1, hp⟩

/-- **The expansion of a program halts**, and leaves one that is free of function literals. -/
theorem Session.expand_halts (macros : ScopeId) {program : Program}
    (h : stmtsWithin .noFunctions program) :
    Halts (fun p => stmtsWithin .noFunctions p) fun d => Session.expand d macros program := by
  refine .bind (.const (Program.defineMacros_blind trivial h)) fun program₁ h₁ => ?_
  simp only [Program.expandMacros, Block.replaceM_eq]
  have hfill := Block.staysWithin h₁
  refine .bind (.mapM fun e he => expandAt_halts macros (hfill.handedOver e he)) fun as has => ?_
  exact .const (.pure (hfill.filled as has))

/-- The body of every macro that is expanded is free of function literals. -/
lemma Expands.within {macros : ScopeId} {depth : Nat} {es : List Expr} {st : Store} {P : Point}
    (h : Expands macros depth es st P) (hes : ∀ e ∈ es, e.within .noFunctions)
    (hst : st.FunctionFree) : P.Within .noFunctions := by
  induction h with
  | body hc hlen =>
    have hcall := hes _ List.mem_cons_self
    rw [Expr.within, Bool.and_eq_true, exprsWithin_iff] at hcall
    have hwithin := (Value.clean_macroFn_iff.mp (hst.lookup hc)).1
    rw [Closure.within, Bool.and_eq_true] at hwithin
    refine ⟨⟨Value.clean_null, hwithin.2⟩, hst.call fun v hv => ?_⟩
    obtain ⟨e, he, rfl⟩ := List.mem_map.mp hv
    exact Value.clean_quote_iff.mpr (hcall.2 e he)
  | next ha hP ih =>
    rw [List.forall_mem_cons] at hes
    exact ih hes.2 (((expandAt_halts macros hes.1).ensures _ hst).of_ok ha).2

/-! ## Sessions -/

/-- A text **has no function literals**, if it is a program: there are none in its statements, nor
in anything that is nested in them. -/
def HasNoFunctions (source : String) : Prop :=
  ∀ program, parse source = .ok program → stmtsWithin .noFunctions program

namespace Session

/-- What a session answers does not depend on the depth, if that is large enough. -/
lemma exists_run {s : Session} (hs : s.store.FunctionFree) {source : String}
    (hsource : HasNoFunctions source) :
    ∃ least r, ∀ depth ≥ least, s.run depth source = some r := by
  cases hparse : parse source with
  | error e => exact ⟨0, _, fun _ _ => run_of_parse_error hparse⟩
  | ok program =>
    have hexpand := expand_halts s.macros (hsource program hparse)
    obtain ⟨d₁, o₁, hne, h₁⟩ := hexpand.decided hs
    cases o₁ with
    | tooDeep => exact absurd rfl hne
    | fault f st =>
      exact ⟨d₁, _, fun depth hle => run_of_expansion_fault hparse (h₁ depth hle)⟩
    | ok program' st =>
      obtain ⟨hprogram', hst⟩ := (hexpand.ensures d₁ hs).of_ok (h₁ d₁ (Nat.le_refl _))
      obtain ⟨d₂, o₂, hne₂, h₂⟩ := (Program.eval_halts hprogram' s.globals).decided hst
      obtain ⟨⟨v, st'⟩, hvalue⟩ : ∃ r, o₂.value? = some r := by
        cases o₂ with
        | ok v st' => exact ⟨_, rfl⟩
        | fault f st' => exact ⟨_, rfl⟩
        | tooDeep => exact absurd rfl hne₂
      refine ⟨max d₁ d₂, (.ok v, { s with store := st' }), fun depth hle => ?_⟩
      rw [run, hparse]
      simp only [h₁ depth (Nat.le_trans (Nat.le_max_left _ _) hle),
        h₂ depth (Nat.le_trans (Nat.le_max_right _ _) hle), hvalue, Option.map_some]

/-- **No function is made** when a text is taken: no function literal is evaluated, no expression
has a value that is a function or has one inside, and none is answered or kept in any scope. -/
structure Step.MakesNoFunction (step : Step) : Prop where
  /-- No function literal is evaluated. -/
  literal {P Q : Point} (hP : step.Begins P) (hQ : P.Reaches Q) (params : List String)
    (body : Block) : Q.node ≠ .expr (.fnLit params body)
  /-- No value of an expression is a function or has one inside. -/
  value {P : Point} {d : Nat} {scope : ScopeId} {e : Expr} {v : Value} {st st' : Store}
    (hP : step.Begins P) (hQ : P.Reaches ⟨d, scope, .expr e, st⟩)
    (he : e.eval d scope st = .ok v st') (c : Closure) : ¬v.Holds (.function c)
  /-- Neither is the answer, nor has it one inside. -/
  answer {v : Value} (h : step.answer = .ok v) (c : Closure) : ¬v.Holds (.function c)
  /-- No function is kept in any scope. -/
  store (c : Closure) : ¬step.after.store.Keeps (.function c)

/-- No function is inside a value that is free of function literals. -/
lemma not_holds_function {v : Value} (h : v.Within .noFunctions) (c : Closure) :
    ¬v.Holds (.function c) :=
  fun hc => Bool.noConfusion (h _ hc).1

namespace Step

variable {step : Step}

/-- Every evaluation that a text begins is free of function literals. -/
lemma Begins.within {P : Point} (h : step.Begins P) (hst : step.before.store.FunctionFree)
    (hsource : HasNoFunctions step.source) : P.Within .noFunctions := by
  cases h with
  | @macroBody program _ _ _ hparse hdefine hP =>
    have hdefines : Halts (fun p => stmtsWithin .noFunctions p) fun _ =>
        (program.defineMacros step.before.macros : Run ExpansionFault Program) :=
      .const (Program.defineMacros_blind trivial (hsource _ hparse))
    obtain ⟨hprogram₁, hst₁⟩ := (hdefines.ensures step.depth hst).of_ok hdefine
    exact hP.within (Block.staysWithin hprogram₁).handedOver hst₁
  | program hparse hexpand =>
    obtain ⟨hprogram', hst'⟩ :=
      ((expand_halts _ (hsource _ hparse)).ensures _ hst).of_ok hexpand
    exact ⟨⟨Value.clean_null, hprogram'⟩, hst'⟩

/-- The store stays free of function literals, and so is what is answered. -/
lemma Runs.functionFree (hrun : step.Runs) (hst : step.before.store.FunctionFree)
    (hsource : HasNoFunctions step.source) :
    (∀ v, step.answer = .ok v → v.Within .noFunctions) ∧ step.after.store.FunctionFree := by
  rcases hrun.cases with ⟨e, hparse, hanswer, hafter⟩ |
    ⟨program, f, st, hparse, hexpand, hanswer, hafter⟩ |
    ⟨program, program', st, v, st', hparse, hexpand, hvalue, hanswer, hafter⟩
  · rw [hanswer, hafter]
    exact ⟨nofun, hst⟩
  · have hexpands := (expand_halts step.before.macros (hsource _ hparse)).ensures step.depth hst
    rw [hanswer, hafter]
    exact ⟨nofun, hexpands.of_fault hexpand⟩
  · have hexpands := (expand_halts step.before.macros (hsource _ hparse)).ensures step.depth hst
    obtain ⟨hprogram', hst₁⟩ := hexpands.of_ok hexpand
    have hevals := (Program.eval_halts hprogram' step.before.globals).ensures step.depth hst₁
    rw [hanswer, hafter]
    cases heval : program'.eval step.depth step.before.globals st with
    | ok w st₂ =>
      rw [heval] at hvalue
      cases hvalue
      obtain ⟨hw, hst₂⟩ := hevals.of_ok heval
      exact ⟨fun v hv => Except.ok.inj hv ▸ hw, hst₂⟩
    | fault f st₂ =>
      rw [heval] at hvalue
      cases hvalue
      refine ⟨fun v hv => Except.ok.inj hv ▸ ?_, hevals.of_fault heval⟩
      rintro _ ⟨⟩
      trivial
    | tooDeep =>
      rw [heval] at hvalue
      cases hvalue

/-- A step makes no function, if it begins without any and its text has no function literals. -/
lemma Runs.makesNoFunction (hrun : step.Runs) (hst : step.before.store.FunctionFree)
    (hsource : HasNoFunctions step.source) : step.MakesNoFunction where
  literal hP hQ params body hnode := by
    have hwithin := (hQ.within (fun _ => rfl) (hP.within hst hsource)).node
    rw [hnode] at hwithin
    cases hwithin
  value hP hQ he := by
    have hwithin := hQ.within (fun _ => rfl) (hP.within hst hsource)
    exact not_holds_function (Point.within_of_eval (fun _ => rfl) hwithin.node hwithin.store he).1
  answer h := not_holds_function ((hrun.functionFree hst hsource).1 _ h)
  store c := fun ⟨i, s, hs, p, hp, hc⟩ =>
    not_holds_function ((hrun.functionFree hst hsource).2 i s hs p hp) c hc

end Step

/-- A session can take all texts of a list that have no function literals. -/
lemma exists_trace {s : Session} (hs : s.store.FunctionFree) {sources : List String}
    (hsources : ∀ source ∈ sources, HasNoFunctions source) :
    ∃ steps, Trace s steps ∧ steps.map Step.source = sources ∧ ∀ step ∈ steps,
      ∀ depth ≥ step.depth,
        step.before.run depth step.source = some (step.answer, step.after) := by
  induction sources generalizing s with
  | nil => exact ⟨[], .nil s, rfl, List.forall_mem_nil _⟩
  | cons source sources ih =>
    rw [List.forall_mem_cons] at hsources
    obtain ⟨least, ⟨answer, after⟩, hrun⟩ := exists_run hs hsources.1
    let step : Step := ⟨least, source, s, answer, after⟩
    have hstep : step.Runs := hrun least (Nat.le_refl _)
    obtain ⟨steps, htrace, hmap, hall⟩ := ih (hstep.functionFree hs hsources.1).2 hsources.2
    refine ⟨step :: steps, .cons hstep htrace, ?_, List.forall_mem_cons.mpr ⟨hrun, hall⟩⟩
    rw [List.map_cons, hmap]

/-- **User functions are the only source of divergence.** A new session that takes one text without
function literals after the other comes to an end with each of them: there is a trace in which each
text is answered, and answered in the same way at all larger depths. And in whatever way these texts
are taken, no function is made.

**Proof sketch.** All syntax is free of function literals, and stays so when quotations are filled
in and macros are expanded. So no function is made, and none can be called. What is left to take
depth are the bodies of macros, which are not expanded again, and the arguments of `unquote`, which
are nested in the syntax. -/
theorem Trace.halts {sources : List String} (h : ∀ source ∈ sources, HasNoFunctions source) :
    (∃ steps, Trace new steps ∧ steps.map Step.source = sources ∧ ∀ step ∈ steps,
      ∀ depth ≥ step.depth,
        step.before.run depth step.source = some (step.answer, step.after)) ∧
    ∀ steps, Trace new steps → steps.map Step.source = sources →
      ∀ step ∈ steps, step.MakesNoFunction := by
  refine ⟨exists_trace all_new h, fun steps htrace hmap => ?_⟩
  refine htrace.forall_of_step (I := fun s => s.store.FunctionFree) all_new
    fun step hmem hrun hst => ?_
  have hsource : HasNoFunctions step.source := h _ (hmap ▸ List.mem_map_of_mem hmem)
  exact ⟨hrun.makesNoFunction hst hsource, (hrun.functionFree hst hsource).2⟩

/-- A macro that stands for a call of itself, with the argument spliced in. -/
def macroOfItself : Program :=
  [.letBind "m" (.macroLit ["x"] [.expr (.call (.ident "quote")
    [.call (.ident "m") [.call (.ident "unquote") [.ident "x"]]])])]

/-- A call of the macro. -/
def callOfItself : Program :=
  [.expr (.call (.ident "m") [.int 1])]

/-- A macro that stands for a call of itself does no harm. -/
theorem Trace.halts_macroOfItself :
    let sources := ["let m = macro(x) \x7b quote(m(unquote(x))) \x7d;", "m(1)"]
    (∀ source ∈ sources, HasNoFunctions source) ∧
      (∃ steps, Trace new steps ∧ steps.map Step.source = sources ∧ ∀ step ∈ steps,
        ∀ depth ≥ step.depth,
          step.before.run depth step.source = some (step.answer, step.after)) ∧
      ∀ steps, Trace new steps → steps.map Step.source = sources →
        ∀ step ∈ steps, step.MakesNoFunction := by
  intro sources
  have hfirst : parse "let m = macro(x) \x7b quote(m(unquote(x))) \x7d;" = .ok macroOfItself :=
    parse_eq_ok_of_toOption (by decide +kernel)
  have hsecond : parse "m(1)" = .ok callOfItself := parse_eq_ok_of_toOption (by decide +kernel)
  have hsources : ∀ source ∈ sources, HasNoFunctions source := by
    refine List.forall_mem_cons.mpr ⟨fun program h => ?_, List.forall_mem_singleton.mpr
      fun program h => ?_⟩
    · obtain rfl := Except.ok.inj (hfirst.symm.trans h)
      decide +kernel
    · obtain rfl := Except.ok.inj (hsecond.symm.trans h)
      decide +kernel
  exact ⟨hsources, halts hsources⟩

end Session

end QuoteLang
