import QuoteLang.Proofs.Definitions
import QuoteLang.Proofs.WellFormed

set_option relaxedAutoImplicit false
set_option autoImplicit false

/-!
# The macros of a session

A session that takes one text after the other has the macros that its texts have defined at their
top level, and no others; of several definitions of a name it has the last. A text that fails
afterwards has defined its macros all the same.

## Main definitions

* `Session.after` — the session after some steps.
* `Session.Step.definitions`, `Session.Step.defined` — the definitions of a text, and the store
  after them.
* `Session.Step.Evaluates` — the evaluation of what is left of a text without its definitions.
* `Session.HasMacros` — a session has the macros of some definitions and no others.
* `Session.Step.KeepsMacros` — a text changes the scope of macros by its definitions only, and the
  scope of programs by other statements only.

## Main results

* `Session.Step.Runs.outcomes` — what a step can do, after its definitions.
* `Session.Trace.macros` — the macros of a session after any number of texts.
-/

namespace QuoteLang

open Run

namespace Session

/-! ## Steps -/

/-- The session after some steps. -/
def after (s : Session) : List Step → Session
  | [] => s
  | step :: steps => step.after.after steps

/-- The expansion of a program begins where its macros have been defined. -/
lemma expand_apply (depth : Nat) (macros : ScopeId) (program : Program) (st : Store) :
    expand depth macros program st =
      program.withoutDefinitions.expandMacros depth macros
        (st.defineAll macros program.definitions) := by
  show Run.bind _ _ _ = _
  rw [Run.bind, Program.defineMacros_eq]

namespace Step

variable {step : Step}

/-- The definitions at the top level of a text, if it is a program. -/
def definitions (step : Step) : List MacroDef :=
  match parse step.source with
  | .ok program => Program.definitions program
  | .error _ => []

/-- The store in which the macros of a text have been defined. -/
def defined (step : Step) : Store :=
  step.before.store.defineAll step.before.macros step.definitions

/-- The evaluation of what is left of a text without its definitions, after expansion. It begins in
the scope of programs. -/
inductive Evaluates (step : Step) : Point → Prop
  /-- The program that the other statements have been expanded to. -/
  | program {program program' : Program} {st : Store} (hparse : parse step.source = .ok program)
      (hexpand : program.withoutDefinitions.expandMacros step.depth step.before.macros
        step.defined = .ok program' st) :
      Evaluates step ⟨step.depth, step.before.globals, .stmts .null program', st⟩

/-- The definitions of a text are those of its program. -/
lemma definitions_eq {program : Program} (h : parse step.source = .ok program) :
    step.definitions = program.definitions := by
  rw [definitions, h]

/-- The expansion of a text begins where its macros have been defined. -/
lemma expand_eq {program : Program} (h : parse step.source = .ok program) :
    Session.expand step.depth step.before.macros program step.before.store =
      program.withoutDefinitions.expandMacros step.depth step.before.macros step.defined := by
  rw [expand_apply, defined, definitions_eq h]

/-- **What a step can do**: the text is no program, and nothing happens; or it is one, and after its
definitions the expansion of the other statements fails; or what is left is evaluated. -/
theorem Runs.outcomes (h : step.Runs) :
    (∃ e, parse step.source = .error e ∧ step.answer = .error (.parse e) ∧
      step.after = step.before) ∨
    (∃ program f st, parse step.source = .ok program ∧
      program.withoutDefinitions.expandMacros step.depth step.before.macros step.defined =
        .fault f st ∧
      step.answer = .error (.expansion f) ∧ step.after = { step.before with store := st }) ∨
    ∃ program program' st v st', parse step.source = .ok program ∧
      program.withoutDefinitions.expandMacros step.depth step.before.macros step.defined =
        .ok program' st ∧
      (program'.eval step.depth step.before.globals st).value? = some (v, st') ∧
      step.answer = .ok v ∧ step.after = { step.before with store := st' } := by
  rcases h.cases with hcase | ⟨program, f, st, hparse, hexpand, hrest⟩ |
    ⟨program, program', st, v, st', hparse, hexpand, hrest⟩
  · exact .inl hcase
  · exact .inr (.inl ⟨program, f, st, hparse, expand_eq hparse ▸ hexpand, hrest⟩)
  · exact .inr (.inr ⟨program, program', st, v, st', hparse, expand_eq hparse ▸ hexpand, hrest⟩)

/-! ## What a step leaves as it is -/

/-- A step keeps the two scopes of a session. -/
lemma Runs.after_scopes (h : step.Runs) :
    step.after.globals = step.before.globals ∧ step.after.macros = step.before.macros := by
  rcases h.outcomes with ⟨_, _, _, hafter⟩ | ⟨_, _, _, _, _, _, hafter⟩ |
    ⟨_, _, _, _, _, _, _, _, _, hafter⟩
  all_goals
    rw [hafter]
    exact ⟨rfl, rfl⟩

/-- **What a text does to the two scopes of a session**: its definitions change the scope of macros
only, and nothing else changes that scope at any time. In the scope of programs nothing but the
other statements binds names. -/
structure KeepsMacros (step : Step) : Prop where
  /-- Wherever an evaluation has come to that the text begins, the scope of macros is as the
  definitions of the text have left it. -/
  during {P Q : Point} : step.Begins P → P.Reaches Q →
    Q.store.scopes[step.before.macros]? = step.defined.scopes[step.before.macros]?
  /-- So it is in the end. -/
  after : step.after.store.scopes[step.before.macros]? = step.defined.scopes[step.before.macros]?
  /-- The definitions leave the scope of programs as it is. -/
  defined : step.defined.scopes[step.before.globals]? =
    step.before.store.scopes[step.before.globals]?
  /-- What the scope of programs binds otherwise than before was bound by a `let` that was evaluated
  directly in it, as a part of what is left of the text without its definitions. -/
  bound (name : String) :
    step.after.store.bound step.before.globals name =
      step.before.store.bound step.before.globals name ∨
    ∃ P v, step.Evaluates P ∧ P.Lets name v ∧
      step.after.store.bound step.before.globals name = some v

/-- The definitions lose no scope, and leave all but the scope of macros as they are. -/
lemma framed_defined (step : Step) :
    Store.Framed step.before.macros step.before.store step.defined :=
  step.before.store.defineAll_framed _ _

section

variable (hbefore : step.before.WellFormed)

include hbefore

/-- After the definitions a text changes the scope of programs only, and there by the `let`s of what
is left of it. -/
lemma Runs.exists_expanded (hrun : step.Runs) : ∃ st, step.defined.Extends st ∧
    Store.Framed step.before.globals st step.after.store ∧
    ∀ name, step.after.store.bound step.before.globals name =
        st.bound step.before.globals name ∨
      ∃ P v, step.Evaluates P ∧ P.Lets name v ∧
        step.after.store.bound step.before.globals name = some v := by
  rcases hrun.outcomes with ⟨e, hparse, -, hafter⟩ | ⟨program, f, st, hparse, hexpand, -, hafter⟩ |
    ⟨program, program', st, v, st', hparse, hexpand, hvalue, -, hafter⟩
  · have hnone : step.definitions = [] := by rw [definitions, hparse]
    rw [hafter, defined, hnone]
    exact ⟨step.before.store, .refl _, (Store.Extends.refl _).framed _, fun _ => .inl rfl⟩
  · have hext := (Program.expandMacros_extends _ _ _ _).of_fault hexpand
    rw [hafter]
    exact ⟨st, hext, (Store.Extends.refl _).framed _, fun _ => .inl rfl⟩
  · have hext := (Program.expandMacros_extends _ _ _ _).of_ok hexpand
    have hlt := Nat.lt_of_lt_of_le
      (Nat.lt_of_lt_of_le hbefore.globals_lt step.framed_defined.size_le) hext.size_le
    have hframed := ((Tree.program program').eval_ensures
      ((Tree.program program').node_framed step.depth step.before.globals st)).of_value? hvalue
    have hwritten := ((Tree.program program').eval_ensures (Point.ensures_writtenBy
      ⟨step.depth, step.before.globals, .stmts .null program', st⟩ hlt)).of_value? hvalue
    rw [hafter]
    refine ⟨st, hext, hframed.elim id And.right, fun name => ?_⟩
    exact ((hwritten.elim id And.right).bound name).imp_right fun ⟨w, hlets, hbound⟩ =>
      ⟨_, w, .program hparse hexpand, hlets, hbound⟩

/-- The scope of macros is there after the definitions. -/
lemma exists_defined : ∃ s, step.defined.scopes[step.before.macros]? = some s :=
  ⟨_, Array.getElem?_eq_getElem
    (Nat.lt_of_lt_of_le hbefore.macros_lt step.framed_defined.size_le)⟩

/-- The scope of macros is untouched where an evaluation begins. -/
lemma Begins.untouched {P : Point} (h : step.Begins P) {s : Scope}
    (hs : step.defined.scopes[step.before.macros]? = some s) :
    P.Untouched step.before.macros s := by
  cases h with
  | macroBody hparse hdefine hP =>
    rw [Program.defineMacros_eq, ← definitions_eq hparse] at hdefine
    cases hdefine
    exact hP.untouched hs
  | program hparse hexpand =>
    rw [expand_eq hparse] at hexpand
    have hext := (Program.expandMacros_extends _ _ _ _).of_ok hexpand
    have hlt := (Array.getElem?_eq_some_iff.mp hs).1
    exact ⟨(hext.scopes_eq _ hlt).trans hs, hbefore.ne.symm⟩

/-- **The definitions of a text are all that changes the scope of macros**, and the scope of
programs is changed by its other statements. -/
theorem Runs.keepsMacros (hrun : step.Runs) : step.KeepsMacros := by
  obtain ⟨s, hs⟩ := exists_defined hbefore
  obtain ⟨st, hext, hframed, hbound⟩ := hrun.exists_expanded hbefore
  have hdefined : step.defined.scopes[step.before.globals]? =
      step.before.store.scopes[step.before.globals]? :=
    step.framed_defined.scopes_eq _ hbefore.globals_lt hbefore.ne
  refine ⟨fun hP hreach => ?_, ?_, hdefined, fun name => ?_⟩
  · exact (hreach.untouched (hP.untouched hbefore hs)).1.trans hs.symm
  · have hlt := (Array.getElem?_eq_some_iff.mp hs).1
    rw [hframed.scopes_eq _ (Nat.lt_of_lt_of_le hlt hext.size_le) hbefore.ne.symm,
      hext.scopes_eq _ hlt]
  · have hlt := Nat.lt_of_lt_of_le hbefore.globals_lt step.framed_defined.size_le
    have heq : st.bound step.before.globals name =
        step.before.store.bound step.before.globals name := by
      rw [Store.bound, Store.bound, hext.scopes_eq _ hlt, hdefined]
    exact heq ▸ hbound name

end

end Step

/-! ## Traces -/

/-- A session **has the macros of definitions** and no others. -/
structure HasMacros (s : Session) (ds : List MacroDef) : Prop where
  /-- The scope of macros binds each name that is defined, and no other, to the macro of its last
  definition. -/
  scope : s.store.HoldsMacros s.macros ds
  /-- The names of macros are sorted, and none comes twice. -/
  sorted : s.macroNames.Pairwise (· < ·)
  /-- They are the names that are defined. -/
  mem_macroNames (name : String) : name ∈ s.macroNames ↔ ∃ d ∈ ds, d.name = name

/-- A scope that holds the macros of definitions makes a session have them. -/
lemma hasMacros_of_holdsMacros {s : Session} {ds : List MacroDef}
    (h : s.store.HoldsMacros s.macros ds) : s.HasMacros ds := by
  obtain ⟨bindings, hscope, hnodup, hbound⟩ := h
  obtain ⟨hsorted, hmem⟩ := Store.names_visible hscope
  refine ⟨⟨bindings, hscope, hnodup, hbound⟩, hsorted, fun name => (hmem name).trans ?_⟩
  have hsome : (bindings.lookup name).isSome = (lastDefinition ds name).isSome := by
    have hrel := hbound name
    generalize bindings.lookup name = bound, lastDefinition ds name = last at hrel
    cases hrel <;> rfl
  rw [← isSome_lastDefinition_iff, ← hsome, List.lookup_isSome_iff, List.mem_map]
  simp only [beq_iff_eq, @eq_comm _ name]

/-- A new session has no macros. -/
lemma hasMacros_new : new.HasMacros [] :=
  hasMacros_of_holdsMacros ⟨[], rfl, List.nodup_nil, fun _ => .none⟩

/-- A session has the macros that it had before a text, and those that the text defines. -/
lemma Step.Runs.holdsMacros {step : Step} (hrun : step.Runs) (hbefore : step.before.WellFormed)
    {ds : List MacroDef} (h : step.before.store.HoldsMacros step.before.macros ds) :
    step.after.store.HoldsMacros step.after.macros (ds ++ step.definitions) := by
  rw [hrun.after_scopes.2]
  exact (h.defineAll step.definitions).of_scopes_eq (hrun.keepsMacros hbefore).after

/-- **The macros of a session**: after any number of texts, whether they were programs or not and
whether they have failed or not, the scope of macros binds exactly one macro for each name that one
of them defines at its top level. It has the parameters and the body of the last of these
definitions, and refers to the scope of macros itself. The names of macros are these names, in
strictly increasing order. Nothing but definitions changes the scope of macros at any time, and no
definition binds its name in the scope of programs.

**Proof sketch.** Induction on the texts. A text defines its macros first. After that no evaluation
takes place in the scope of macros, since that is not the scope of programs, and the bodies of
macros are evaluated in new scopes. -/
theorem Trace.macros {steps : List Step} (h : Trace new steps) :
    (new.after steps).HasMacros (steps.flatMap Step.definitions) ∧
      ∀ step ∈ steps, step.KeepsMacros := by
  have holds {s : Session} {steps : List Step} (h : Trace s steps) (hs : s.WellFormed)
      {ds : List MacroDef} (hds : s.store.HoldsMacros s.macros ds) :
      (s.after steps).store.HoldsMacros (s.after steps).macros
        (ds ++ steps.flatMap Step.definitions) := by
    induction h generalizing ds with
    | nil => simpa [after] using hds
    | cons hrun rest ih =>
      rw [List.flatMap_cons, ← List.append_assoc]
      exact ih (hrun.wellFormed hs) (hrun.holdsMacros hs hds)
  refine ⟨hasMacros_of_holdsMacros ?_, fun step hmem => ?_⟩
  · exact holds h wellFormed_new hasMacros_new.scope
  · have hkeeps := h.forall_of_step wellFormed_new fun step _ hrun hs =>
      ⟨hrun.keepsMacros hs, hrun.wellFormed hs⟩
    exact hkeeps step hmem

/-- A macro with a parameter, and a call of it without an argument. -/
def badCall : Program :=
  [.letBind "m" (.macroLit ["a"] [.expr (.int 1)]), .expr (.call (.ident "m") [])]

/-- Another macro of the same name. -/
def secondMacro : Program :=
  [.letBind "m" (.macroLit [] [.expr (.call (.ident "quote") [.int 1])])]

/-- A text whose expansion fails after it has defined a macro, and a text that defines the macro
again. -/
theorem macros_badCall :
    ∃ s₁ s₂ : Session,
      let first : Step := ⟨1, "let m = macro(a) \x7b 1 \x7d; m();", new,
        .error (.expansion (.argumentCount "m" 0 1)), s₁⟩
      let second : Step := ⟨1, "let m = macro() \x7b quote(1) \x7d;", s₁, .ok .null, s₂⟩
      Trace new [first, second] ∧
        (new.after [first, second]).HasMacros ([first, second].flatMap Step.definitions) ∧
        ∀ step ∈ [first, second], step.KeepsMacros := by
  have hfirst : parse "let m = macro(a) \x7b 1 \x7d; m();" = .ok badCall :=
    parse_eq_ok_of_toOption (by decide +kernel)
  have hsecond : parse "let m = macro() \x7b quote(1) \x7d;" = .ok secondMacro :=
    parse_eq_ok_of_toOption (by decide +kernel)
  obtain ⟨st₁, hexpand₁⟩ : ∃ st₁,
      expand 1 1 badCall new.store = .fault (.argumentCount "m" 0 1) st₁ :=
    ⟨_, by with_unfolding_all rfl⟩
  obtain ⟨st₂, hexpand₂⟩ : ∃ st₂, expand 1 1 secondMacro st₁ = .ok [] st₂ :=
    ⟨_, bind_eq_ok.mpr ⟨_, _, Program.defineMacros_eq 1 secondMacro st₁, rfl⟩⟩
  refine ⟨⟨st₁, 0, 1⟩, ⟨st₂, 0, 1⟩, ?_⟩
  intro first second
  have hrun₁ : first.Runs := run_of_expansion_fault hfirst hexpand₁
  have hrun₂ : second.Runs :=
    run_of_eval hsecond hexpand₂ (show Program.eval 1 [] 0 st₂ = .ok .null st₂ from rfl)
  have htrace : Trace new [first, second] := .cons hrun₁ (.cons hrun₂ (.nil _))
  exact ⟨htrace, htrace.macros⟩

end Session

end QuoteLang
