import QuoteLang.Proofs.Trace

set_option relaxedAutoImplicit false
set_option autoImplicit false

/-!
# Where a `return` ends

A `return` ends the function or the program around it, and the value on its way there is no data. It
becomes data all the same where a choice stands as an operand: the choice passes the `return` of its
block on, and what uses the value of the choice takes the wrapping for the value. Nothing else lets
it out.

## Main definitions

* `Value.HasReturn`, `Value.NoReturn` — a value is, or contains, one on its way out of a function.
* `Session.Step.NoReturn` — no such value is answered, bound, or used as an operand.
* `Session.Step.PassesNoReturn` — no choice that stands as an operand passes a `return` on.

## Main results

* `Session.Trace.noReturn_iff` — in a session no `return` becomes data exactly if no choice that
  stands as an operand passes one on.
-/

namespace QuoteLang

/-! ## Values -/

/-- A value is one on its way out of a function, or contains such a value at any depth. -/
inductive Value.HasReturn : Value → Prop
  /-- It is on its way out itself. -/
  | returned (v : Value) : HasReturn (.returned v)
  /-- An item of an array has it. -/
  | item {items : List Value} {v : Value} (hv : v ∈ items) (h : HasReturn v) :
      HasReturn (.array items)
  /-- A value of a hash has it. -/
  | entry {entries : List (Key × Value)} {e : Key × Value} (he : e ∈ entries)
      (h : HasReturn e.2) : HasReturn (.hash entries)

/-- A value neither is nor contains one on its way out of a function. -/
def Value.NoReturn (v : Value) : Prop := ¬ v.HasReturn

namespace Value

/-- Values that contain no `return` are passed between data and their parts. -/
lemma hereditary_noReturn : Hereditary NoReturn where
  int _ := nofun
  bool _ := nofun
  str _ := nofun
  function _ := nofun
  builtin _ := nofun
  macroFn _ := nofun
  quote _ := nofun
  null := nofun
  array_iff := by
    refine ⟨fun h v hv hreturn => h (.item hv hreturn), fun h hreturn => ?_⟩
    cases hreturn with
    | item hv hreturn => exact h _ hv hreturn
  hash_iff := by
    refine ⟨fun h e he hreturn => h (.entry he hreturn), fun h hreturn => ?_⟩
    cases hreturn with
    | entry he hreturn => exact h _ he hreturn
  of_returned h := absurd (.returned _) h

/-- An error contains no `return`. -/
lemma noReturn_of_isError {v : Value} (h : v.isError = true) : v.NoReturn := by
  intro hreturn
  cases hreturn <;> cases h

/-- What contains no `return` is not on its way out. -/
lemma NoReturn.isReturned {v : Value} (h : v.NoReturn) : v.isReturned = false := by
  cases v with
  | returned w => exact absurd (.returned w) h
  | _ => rfl

/-- What is not on its way out contains no `return`, if all that wraps is to contain none. -/
lemma Out.noReturn {v : Value} (h : v.Out NoReturn) (hv : v.isReturned = false) :
    v.NoReturn := by
  rcases h with h | ⟨w, rfl, -⟩
  · exact h
  · cases hv

end Value

/-! ## Sessions -/

namespace Session

/-- No value on its way out of a function is answered, bound or used as an operand in a step, or
contained in such a value. -/
structure Step.NoReturn (step : Step) : Prop where
  /-- None is answered. -/
  answer : ∀ v, step.answer = .ok v → v.NoReturn
  /-- None is bound in any scope after the step. -/
  store : step.after.store.All Value.NoReturn
  /-- None is used as an operand. -/
  operand : ∀ d s e st v st', step.Meets ⟨d, s, .expr e, st⟩ → e.eval d s st = .ok v st' →
    v.NoReturn

/-- No choice that stands as an operand passes the `return` of one of its blocks on. -/
def Step.PassesNoReturn (step : Step) : Prop :=
  ∀ d s e st v st', step.Meets ⟨d, s, .expr e, st⟩ → e.isCond = true → e.eval d s st = .ok v st' →
    v.isReturned = false

/-- Where no choice passes a `return` on, all operands settle on data. -/
lemma Step.PassesNoReturn.settles {step : Step} (h : step.PassesNoReturn) :
    step.Settles Value.NoReturn :=
  fun P hbegins d s e st v st' hmeets hcond he hout =>
    hout.noReturn (h d s e st v st' ⟨P, hbegins, hmeets⟩ hcond he)

/-- **Where a `return` ends**: in a session that takes one text after the other, no value on its way
out of a function is answered, bound or used as an operand, exactly if no choice that stands as an
operand passes a `return` on.

**Proof sketch.** To contain no `return` is hereditary, so all that is computed and bound has this
property as long as the choices among the operands have it. A choice that passes nothing on has a
value that contains no `return`. -/
theorem Trace.noReturn_iff {steps : List Step} (h : Trace new steps) :
    (∀ step ∈ steps, step.NoReturn) ↔ ∀ step ∈ steps, step.PassesNoReturn := by
  constructor
  · intro hnone step hmem d s e st v st' hmeets _ he
    exact ((hnone step hmem).operand d s e st v st' hmeets he).isReturned
  · intro hpasses step hmem
    have hall := h.hasAll Value.hereditary_noReturn fun step hmem => (hpasses step hmem).settles
    refine ⟨fun v hv => ?_, (hall step hmem).store, (hall step hmem).operand⟩
    rcases (hall step hmem).answer v hv with hv | herror
    · exact hv
    · exact Value.noReturn_of_isError herror

/-- A function with a `return` in a choice, and a name that is bound to a call of it. -/
def returnInCall : Program :=
  [.letBind "f" (.fnLit ["x"] [.expr (.cond (.ident "x") [.ret (some (.int 5))] none),
    .expr (.int 6)]), .letBind "y" (.call (.ident "f") [.bool true])]

/-- A `return` in a choice that stands as a statement ends the function around it. -/
theorem noReturn_iff_call :
    ∃ after : Session,
      let step : Step :=
        ⟨2, "let f = fn(x) \x7b if (x) \x7b return 5 \x7d; 6 \x7d; let y = f(true)", new,
          .ok (.int 5), after⟩
      Trace new [step] ∧
        ((∀ s ∈ [step], s.NoReturn) ↔ ∀ s ∈ [step], s.PassesNoReturn) := by
  have hparse : parse "let f = fn(x) \x7b if (x) \x7b return 5 \x7d; 6 \x7d; let y = f(true)" =
      .ok returnInCall := parse_eq_ok_of_toOption (by decide +kernel)
  have hexpand : expand 2 1 returnInCall new.store = .ok returnInCall new.store := by
    with_unfolding_all rfl
  obtain ⟨st, heval⟩ : ∃ st, returnInCall.eval 2 0 new.store = .ok (.int 5) st :=
    ⟨_, by with_unfolding_all rfl⟩
  refine ⟨⟨st, 0, 1⟩, ?_⟩
  intro step
  have hrun : step.Runs := run_of_eval (s := new) hparse hexpand heval
  have htrace : Trace new [step] := .cons hrun (.nil _)
  exact ⟨htrace, htrace.noReturn_iff⟩

/-- A name that is bound to a choice with a `return` in it. -/
def returnInLet : Program :=
  [.letBind "x" (.cond (.bool true) [.ret (some (.int 5))] none)]

/-- A `return` in a choice that stands after a `let` is bound together with its wrapping. -/
theorem run_binds_returned :
    ∃ after : Session,
      new.run 1 "let x = if (true) \x7b return 5 \x7d;" = some (.ok (.int 5), after) ∧
      after.store.lookup after.globals "x" = some (.returned (.int 5)) ∧
      ¬ after.store.All Value.NoReturn := by
  have hparse : parse "let x = if (true) \x7b return 5 \x7d;" = .ok returnInLet :=
    parse_eq_ok_of_toOption (by decide +kernel)
  have hexpand : expand 1 1 returnInLet new.store = .ok returnInLet new.store := by
    with_unfolding_all rfl
  have heval : returnInLet.eval 1 0 new.store =
      .ok (.int 5) (new.store.bind 0 "x" (.returned (.int 5))) := by with_unfolding_all rfl
  have hlookup : (new.store.bind 0 "x" (.returned (.int 5))).lookup 0 "x" =
      some (.returned (.int 5)) := by
    have hscope : (new.store.bind 0 "x" (.returned (.int 5))).scopes[0]? =
        some ⟨[("x", .returned (.int 5))], none⟩ := rfl
    rw [Store.lookup_eq hscope (by simp)]
    rfl
  exact ⟨⟨_, 0, 1⟩, run_of_eval (s := new) hparse hexpand heval, hlookup, fun hall =>
    hall.lookup hlookup (.returned _)⟩

end Session

end QuoteLang
