import QuoteLang.Proofs.Failures
import QuoteLang.Proofs.Sequence

set_option relaxedAutoImplicit false
set_option autoImplicit false

/-!
# Texts that are taken at once

A session may take texts one after the other, or take all of them at once as one text. In the first
case each text is expanded when the texts before it have been evaluated; in the second all texts are
expanded before any is evaluated. Still the outcome is the same, since expansion depends on nothing
but the scope of macros, which evaluation leaves alone, and since the scopes and functions that
expansion leaves behind are out of reach of evaluation.

## Main definitions

* `Session.Step.program`, `Session.Step.others` — what a text is read as, and its statements that
  define no macros.
* `Session.Step.Succeeds`, `Session.Step.FallsThrough`, `Session.Step.ExpandsSilently` — a text
  answers a value, none of its statements returns, and its expansion writes nothing.
* `Session.Replays` — statements take a store that is reflected in a session to one that is
  reflected in another.
* `Session.LooksLike` — two sessions show the same names, values and macros.

## Main results

* `Program.expandMacros_append`, `Program.eval_append` — expansion and evaluation of statements that
  are put together.
* `Program.expandMacros_of_holdsMacros` — the expansion of a text depends on the scope of macros
  only.
* `Session.Trace.run_join` — texts that are taken at once do what they do one after the other.
-/

namespace QuoteLang

open Run

/-! ## Statements that are put together -/

/-- Statements that are put together are replaced one list after the other. -/
lemma replaceStmtsM_append {m : Type → Type} [Monad m] [LawfulMonad m] (f : Expr → m Expr)
    (ss rest : List Stmt) : replaceStmtsM f (ss ++ rest) = (do
      let ss ← replaceStmtsM f ss
      let rest ← replaceStmtsM f rest
      return ss ++ rest) := by
  induction ss with
  | nil => simp [replaceStmtsM]
  | cons s ss ih => simp [replaceStmtsM, ih]

/-- **Programs that are put together** are expanded one after the other. -/
theorem Program.expandMacros_append {depth : Nat} {macros : ScopeId} {p q p' q' : Program}
    {st st₁ st₂ : Store} (hp : p.expandMacros depth macros st = .ok p' st₁)
    (hq : q.expandMacros depth macros st₁ = .ok q' st₂) :
    Program.expandMacros depth macros (p ++ q) st = .ok (p' ++ q') st₂ := by
  rw [expandMacros, Block.replaceM, replaceStmtsM_append]
  exact bind_eq_ok.mpr ⟨p', st₁, hp, bind_eq_ok.mpr ⟨q', st₂, hq, rfl⟩⟩

/-- What statements are expanded to is not empty. -/
lemma Program.ne_nil_of_expandMacros {depth : Nat} {macros : ScopeId} {p p' : Program}
    {st st' : Store} (h : p.expandMacros depth macros st = .ok p' st') (hne : p ≠ []) :
    p' ≠ [] := by
  obtain ⟨s, rest, rfl⟩ := List.exists_cons_of_ne_nil hne
  rw [expandMacros, Block.replaceM, replaceStmtsM] at h
  obtain ⟨s', st₁, -, h⟩ := bind_eq_ok.mp h
  obtain ⟨rest', st₂, -, h⟩ := bind_eq_ok.mp h
  cases h
  exact List.cons_ne_nil s' rest'

section

variable {deeper : Deeper} {scope : ScopeId} {before v : Value} {ss rest : List Stmt}
  {st st' : Store}

/-- The value before statements does not matter, if there are any. -/
lemma evalStmts_of_ne_nil (before' : Value) (h : ss ≠ []) :
    evalStmts deeper scope before ss = evalStmts deeper scope before' ss := by
  obtain ⟨s, rest, rfl⟩ := List.exists_cons_of_ne_nil h
  rw [evalStmts_cons, evalStmts_cons]

/-- After statements that do not return, others are evaluated. -/
lemma evalStmts_append (h : evalStmts deeper scope before ss st = .ok v st')
    (hv : v.isReturned = false) (rest : List Stmt) :
    evalStmts deeper scope before (ss ++ rest) st = evalStmts deeper scope v rest st' := by
  induction ss generalizing before st with
  | nil =>
    rw [evalStmts] at h
    cases h
    rfl
  | cons s ss ih =>
    rw [evalStmts_cons] at h
    obtain ⟨u, st₁, hs, h⟩ := bind_eq_ok.mp h
    have hfirst : evalStmts deeper scope before (s :: ss ++ rest) st =
        (if u.isReturned then return u else evalStmts deeper scope u (ss ++ rest)) st₁ := by
      rw [List.cons_append, evalStmts_cons]
      show Run.bind _ _ _ = _
      rw [Run.bind, hs]
    rw [hfirst]
    split at h
    · rename_i hu
      cases h
      rw [hv] at hu
      cases hu
    · rename_i hu
      rw [if_neg hu]
      exact ih h

end

/-- **After statements that do not return a program goes on**, in the store that they leave. -/
theorem Program.eval_append {depth : Nat} {scope : ScopeId} {ss : List Stmt} {program : Program}
    {v : Value} {st st' : Store} (h : evalStmts (evalBlock depth) scope .null ss st = .ok v st')
    (hv : v.isReturned = false) (hne : program ≠ []) :
    Program.eval depth (ss ++ program) scope st = program.eval depth scope st' := by
  show Run.bind _ _ _ = Run.bind _ _ _
  rw [Run.bind, Run.bind, evalStmts_append h hv, evalStmts_of_ne_nil .null hne]

/-- None of some statements returns, as they are evaluated one after the other. -/
def NoneReturns (depth : Nat) (scope : ScopeId) : List Stmt → Store → Prop
  | [], _ => True
  | s :: rest, st => ∀ v st', s.eval depth scope st = .ok v st' →
    v.isReturned = false ∧ NoneReturns depth scope rest st'

/-- Statements none of which returns do not return. -/
lemma NoneReturns.isReturned {depth : Nat} {scope : ScopeId} {ss : List Stmt} {before v : Value}
    {st st' : Store} (hnone : NoneReturns depth scope ss st) (hbefore : before.isReturned = false)
    (h : evalStmts (evalBlock depth) scope before ss st = .ok v st') : v.isReturned = false := by
  induction ss generalizing before st with
  | nil =>
    rw [evalStmts] at h
    cases h
    exact hbefore
  | cons s ss ih =>
    rw [evalStmts_cons] at h
    obtain ⟨u, st₁, hs, h⟩ := bind_eq_ok.mp h
    obtain ⟨hu, hrest⟩ := hnone u st₁ hs
    rw [hu] at h
    exact ih hrest hu h

/-! ## Macros in other stores -/

/-- Definitions write nothing. -/
lemma Store.output_defineAll (st : Store) (macros : ScopeId) (ds : List MacroDef) :
    (st.defineAll macros ds).output = st.output := by
  induction ds generalizing st with
  | nil => rfl
  | cons d ds ih => exact ih (st.define macros d)

/-- Stores with the same macros are twins in which the scopes of macros correspond. -/
lemma Store.HoldsMacros.exists_twin {st st' : Store} {macros : ScopeId} {ds : List MacroDef}
    (h : st.HoldsMacros macros ds) (heq : st'.scopes[macros]? = st.scopes[macros]?) :
    ∃ T : Twin, T.left = st' ∧ T.right = st ∧ T.scopes macros macros := by
  obtain ⟨bindings, hscope, hnodup, hbound⟩ := h
  let M : Pairing := ⟨fun i j => i = macros ∧ j = macros, 0⟩
  have hself {p : String × Value} (hp : p ∈ bindings) : p.2.Alike M p.2 := by
    have hrel := hbound p.1
    rw [Assoc.lookup_of_mem hnodup hp] at hrel
    generalize lastDefinition ds p.1 = last at hrel
    cases hrel with
    | some hbinds =>
      obtain ⟨id, hvalue⟩ := hbinds
      rw [hvalue]
      exact .macroFn ⟨rfl, rfl, ⟨rfl, rfl⟩, fun _ => rfl⟩
  let T : Twin :=
    { toPairing := M
      left := st'
      right := st
      alike := by
        rintro _ _ ⟨rfl, rfl⟩
        exact ⟨_, _, heq.trans hscope, hscope,
          List.forall₂_same.mpr fun p hp => ⟨rfl, hself hp⟩, .none⟩
      unique := by
        rintro _ _ _ _ ⟨rfl, rfl⟩ ⟨rfl, rfl⟩
        exact iff_of_true rfl rfl
      shared_le := Nat.zero_le _ }
  exact ⟨T, rfl, rfl, rfl, rfl⟩

/-- **Expansion depends on the scope of macros only**: a program becomes the same in another store
with the same macros, and the same is written. On the other side calls may be nested more deeply. -/
theorem Program.expandMacros_of_holdsMacros {st st' st₁ : Store} {macros : ScopeId}
    {ds : List MacroDef} (h : st.HoldsMacros macros ds)
    (heq : st'.scopes[macros]? = st.scopes[macros]?) {d d' : Nat} (hd : d ≤ d')
    {program program' : Program} (hexpand : program.expandMacros d macros st' = .ok program' st₁) :
    ∃ st₂ text, program.expandMacros d' macros st = .ok program' st₂ ∧ st.Extends st₂ ∧
      st₁.output = st'.output ++ text ∧ st₂.output = st.output ++ text := by
  obtain ⟨T, rfl, rfl, hscopes⟩ := h.exists_twin heq
  obtain ⟨T', _, hT', rfl, hright, rfl⟩ :=
    (program.expandMacros_follows hd hscopes).of_ok hexpand
  obtain ⟨text, houtput, houtput'⟩ := hT'.output
  exact ⟨T'.right, text, hright, (program.expandMacros_extends d' macros _).of_ok hright, houtput,
    houtput'⟩

/-! ## Texts that succeed -/

/-- A run that has ended with something that is no error has ended with that value. -/
lemma Outcome.eq_ok_of_value? {o : Outcome Fault Value} {v : Value} {st : Store}
    (h : o.value? = some (v, st)) (hv : v.isError = false) : o = .ok v st := by
  cases o with
  | ok w st' =>
    cases h
    rfl
  | fault f st' =>
    cases h
    cases hv
  | tooDeep => cases h

namespace Session

namespace Step

/-- What a text is read as. -/
def program (step : Step) : Program :=
  match parse step.source with
  | .ok program => program
  | .error _ => []

/-- The statements of a text that define no macros. -/
def others (step : Step) : Program :=
  step.program.withoutDefinitions

/-- What these statements are expanded to. -/
def expanded (step : Step) : Program :=
  match step.others.expandMacros step.depth step.before.macros step.defined with
  | .ok out _ => out
  | _ => []

/-- A text answers a value that is no error. -/
def Succeeds (step : Step) : Prop :=
  ∃ v, step.answer = .ok v ∧ v.isError = false

/-- None of the statements of a text returns that are left after its expansion. -/
def FallsThrough (step : Step) : Prop :=
  ∀ st, step.others.expandMacros step.depth step.before.macros step.defined =
    .ok step.expanded st → NoneReturns step.depth step.before.globals step.expanded st

/-- The expansion of a text writes nothing: the bodies of the macros that it calls do not. -/
def ExpandsSilently (step : Step) : Prop :=
  ∀ st, step.others.expandMacros step.depth step.before.macros step.defined =
    .ok step.expanded st → st.output = step.before.store.output

/-- A text **passes** all stages: it is read, it is expanded to other statements, and these are
evaluated. -/
structure Passes (step : Step) (st : Store) (v : Value) : Prop where
  /-- The text is read. -/
  parse : QuoteLang.parse step.source = .ok step.program
  /-- The statements that define no macros are expanded. -/
  expand : step.others.expandMacros step.depth step.before.macros step.defined =
    .ok step.expanded st
  /-- They are evaluated. -/
  eval : step.expanded.eval step.depth step.before.globals st = .ok v step.after.store
  /-- The value is answered. -/
  answer : step.answer = .ok v
  /-- The session keeps its scopes. -/
  after : step.after = { step.before with store := step.after.store }

variable {step : Step}

/-- A text that succeeds passes all stages. -/
lemma Runs.exists_passes (hrun : step.Runs) (h : step.Succeeds) : ∃ st v, step.Passes st v := by
  obtain ⟨v, hv, herror⟩ := h
  rcases hrun.outcomes with ⟨_, _, hanswer, _⟩ | ⟨_, _, _, _, _, hanswer, _⟩ |
    ⟨program, out, st, w, st', hparse, hexpand, hvalue, hanswer, hafter⟩
  · rw [hv] at hanswer
    cases hanswer
  · rw [hv] at hanswer
    cases hanswer
  · obtain rfl := Except.ok.inj (hv.symm.trans hanswer)
    have hprogram : step.program = program := by rw [Step.program, hparse]
    rw [← hprogram] at hparse hexpand
    have hexpanded : step.expanded = out := by rw [expanded, others, hexpand]
    rw [← hexpanded] at hexpand hvalue
    refine ⟨st, v, hparse, hexpand, ?_, hv, ?_⟩
    · rw [hafter]
      exact Outcome.eq_ok_of_value? hvalue herror
    · rw [hafter]

end Step

/-! ## Replaying -/

/-- Statements **replay** what leads from one session to another: evaluated in a store that reflects
the one, they do not return, and they end in a store that reflects the other. If the session has
written nothing else, the same is written. -/
def Replays (depth : Nat) (out : Program) (silent : Prop) (s s' : Session) : Prop :=
  ∀ (T : Twin) (j : ScopeId) (before : Value), T.Reflects s j → before.isReturned = false →
    ∃ (T' : Twin) (v : Value), T'.Reflects s' j ∧
      evalStmts (evalBlock depth) j before out T.right = .ok v T'.right ∧ v.isReturned = false ∧
      (silent → WroteSame s.store s'.store T.right T'.right)

/-- No statements replay nothing. -/
lemma Replays.nil (depth : Nat) (silent : Prop) (s : Session) : Replays depth [] silent s s :=
  fun T _ before hT hbefore =>
    ⟨T, before, hT, by rw [evalStmts]; rfl, hbefore, fun _ => .refl s.store T.right⟩

/-- Statements that are put together replay one thing after the other. -/
lemma Replays.append {depth : Nat} {out out' : Program} {silent silent' silent'' : Prop}
    {s s' s'' : Session} (h : Replays depth out silent s s')
    (h' : Replays depth out' silent' s' s'') (hsilent : silent'' → silent ∧ silent') :
    Replays depth (out ++ out') silent'' s s'' := by
  intro T j before hT hbefore
  obtain ⟨T₁, v, hT₁, heval, hv, houtput⟩ := h T j before hT hbefore
  obtain ⟨T₂, w, hT₂, heval', hw, houtput'⟩ := h' T₁ j v hT₁ hv
  refine ⟨T₂, w, hT₂, (evalStmts_append heval hv out').trans heval', hw, fun hall => ?_⟩
  exact (houtput (hsilent hall).1).trans (houtput' (hsilent hall).2)

namespace Step.Passes

variable {step : Step} {st : Store} {v : Value} (h : step.Passes st v)
  (hbefore : step.before.WellFormed) {T : Twin} {j : ScopeId}

include h hbefore

/-- **What is evaluated after the expansion of a text is evaluated to the same where the session is
reflected**, although the expansion has made scopes there at another time, or not at all. -/
theorem of_follows (hT : T.Reflects step.before j) {x y : Run Fault Value} {u : Value}
    (hxy : ∀ T' : Twin, T'.scopes step.before.globals j → Follows T' Value.Alike x y)
    (hx : x st = .ok u step.after.store) :
    ∃ (T' : Twin) (w : Value), T'.Reflects step.after j ∧ y T.right = .ok w T'.right ∧
      u.Alike T'.toPairing w ∧
      (step.ExpandsSilently → WroteSame step.before.store step.after.store T.right T'.right) := by
  have hext := (Program.expandMacros_extends _ _ _ _).of_ok h.expand
  have hmacros := Nat.lt_of_lt_of_le
    (Nat.lt_of_lt_of_le hbefore.macros_lt step.framed_defined.size_le) hext.size_le
  obtain ⟨T₁, hT₁, hright⟩ := hT.exists_withStore (Step.scopes_eq_of_extends hext)
  obtain rfl : T₁.left = st := hT₁.left
  obtain ⟨T₂, w, hT₂, hleft, hy, huw⟩ := (hxy T₁ hT₁.globals).of_ok hx
  have hreflects := hT₁.of_leads hmacros hT₂
  rw [hleft, ← h.after] at hreflects
  obtain ⟨text, houtput, houtput'⟩ := hT₂.output
  refine ⟨T₂, w, hreflects, hright ▸ hy, huw, fun hsilent => ⟨text, ?_, hright ▸ houtput'⟩⟩
  rw [← hleft, houtput, hsilent T₁.left h.expand]

/-- **What a text is expanded to replays it**, if none of its statements returns. -/
theorem replays {depth : Nat} (hdepth : step.depth ≤ depth) (hthrough : step.FallsThrough) :
    Replays depth step.expanded step.ExpandsSilently step.before step.after := by
  intro T j before hT hreturned
  obtain ⟨u, st₁, hstmts, hsettle⟩ := bind_eq_ok.mp h.eval
  obtain rfl := ((Still.settle _) st₁).of_ok hsettle
  have hu := (hthrough st h.expand).isReturned rfl hstmts
  obtain ⟨T', w, hT', heval, huw, houtput⟩ := h.of_follows hbefore hT
    (fun _ hscopes => evalStmts_evalBlock_follows hdepth hscopes .null step.expanded) hstmts
  by_cases hnil : step.expanded = []
  · rw [hnil, evalStmts] at heval
    obtain ⟨-, hright⟩ := Outcome.ok.inj heval
    refine ⟨T', before, hT', ?_, hreturned, houtput⟩
    rw [hnil, evalStmts, ← hright]
    rfl
  · refine ⟨T', w, hT', ?_, huw.isReturned_eq ▸ hu, houtput⟩
    rw [evalStmts_of_ne_nil .null hnil]
    exact heval

end Step.Passes

/-! ## Traces that are put together -/

/-- The session after steps and then others. -/
lemma after_append (s : Session) (steps later : List Step) :
    s.after (steps ++ later) = (s.after steps).after later := by
  induction steps generalizing s with
  | nil => rfl
  | cons step steps ih => exact ih step.after

/-- Steps and then others are two traces, one after the other. -/
lemma Trace.of_append {s : Session} {steps later : List Step} (h : Trace s (steps ++ later)) :
    Trace s steps ∧ Trace (s.after steps) later := by
  induction steps generalizing s with
  | nil => exact ⟨.nil s, h⟩
  | cons step steps ih =>
    cases h with
    | cons hrun rest =>
      obtain ⟨hsteps, hlater⟩ := ih rest
      exact ⟨.cons hrun hsteps, hlater⟩

/-- A trace begins with its first step. -/
lemma Trace.of_cons {s : Session} {step : Step} {steps : List Step}
    (h : Trace s (step :: steps)) : step.before = s ∧ step.Runs ∧ Trace step.after steps := by
  cases h with
  | cons hrun rest => exact ⟨rfl, hrun, rest⟩

/-- As long as texts define no macros, the scope of macros stays as it is. -/
lemma Trace.macros_eq {s : Session} {steps : List Step} (h : Trace s steps) (hs : s.WellFormed)
    (hnone : ∀ step ∈ steps, step.definitions = []) :
    ((s.after steps).macros = s.macros ∧
      (s.after steps).store.scopes[s.macros]? = s.store.scopes[s.macros]?) ∧
    ∀ step ∈ steps, step.before.macros = s.macros ∧
      step.defined.scopes[s.macros]? = s.store.scopes[s.macros]? := by
  induction h with
  | nil s => exact ⟨⟨rfl, rfl⟩, List.forall_mem_nil _⟩
  | @cons step steps hrun rest ih =>
    rw [List.forall_mem_cons] at hnone
    obtain ⟨hnone, hrest⟩ := hnone
    have hdefined : step.defined = step.before.store := by
      rw [Step.defined, hnone]
      rfl
    have hmacros := hrun.after_scopes.2
    have hscope := (hrun.keepsMacros hs).after
    rw [hdefined] at hscope
    have hlater := ih (hrun.wellFormed hs) hrest
    rw [hmacros, hscope] at hlater
    exact ⟨hlater.1, List.forall_mem_cons.mpr ⟨⟨rfl, by rw [hdefined]⟩, hlater.2⟩⟩

/-- **Texts are expanded one after the other to the same** in a store with the same macros, where
nothing is evaluated between them.

**Proof sketch.** Induction on the steps. Expansion changes no scope, so the macros are the same
each time. -/
theorem Trace.exists_expandMacros {s : Session} {steps : List Step} (h : Trace s steps)
    {depth : Nat} {macros : ScopeId} {ds : List MacroDef} {st : Store}
    (hst : st.HoldsMacros macros ds)
    (hmacros : ∀ step ∈ steps, step.before.macros = macros ∧
      step.defined.scopes[macros]? = st.scopes[macros]?)
    (hdepth : ∀ step ∈ steps, step.depth ≤ depth) (hsucceeds : ∀ step ∈ steps, step.Succeeds) :
    ∃ st', Program.expandMacros depth macros (steps.flatMap Step.others) st =
        .ok (steps.flatMap Step.expanded) st' ∧ st.Extends st' ∧
      ((∀ step ∈ steps, step.ExpandsSilently) → st'.output = st.output) := by
  induction h generalizing st with
  | nil s => exact ⟨st, rfl, .refl st, fun _ => rfl⟩
  | @cons step steps hrun rest ih =>
    rw [List.forall_mem_cons] at hmacros hdepth hsucceeds
    obtain ⟨st₁, v, hpasses⟩ := hrun.exists_passes hsucceeds.1
    obtain ⟨rfl, hscope⟩ := hmacros.1
    obtain ⟨st₂, text, hexpand, hext, houtput, houtput'⟩ :=
      Program.expandMacros_of_holdsMacros hst hscope hdepth.1 hpasses.expand
    have hsame : st₂.scopes[step.before.macros]? = st.scopes[step.before.macros]? := by
      obtain ⟨bindings, hbindings, -⟩ := hst
      exact hext.scopes_eq _ (Array.getElem?_eq_some_iff.mp hbindings).1
    obtain ⟨st₃, hexpand', hext', hsilent⟩ := ih (hst.of_scopes_eq hsame)
      (fun later hlater => hsame ▸ hmacros.2 later hlater) hdepth.2 hsucceeds.2
    refine ⟨st₃, Program.expandMacros_append hexpand hexpand', hext.trans hext', fun hall => ?_⟩
    rw [List.forall_mem_cons] at hall
    have hempty := hall.1 st₁ hpasses.expand
    rw [houtput, Step.defined, Store.output_defineAll, String.append_eq_left_iff] at hempty
    rw [hsilent hall.2, houtput', hempty, String.append_empty]

/-- **Steps are replayed by what their texts are expanded to**, if no statement returns. -/
theorem Trace.replays {s : Session} {steps : List Step} (h : Trace s steps) (hs : s.WellFormed)
    {depth : Nat} (hdepth : ∀ step ∈ steps, step.depth ≤ depth)
    (hsucceeds : ∀ step ∈ steps, step.Succeeds) (hthrough : ∀ step ∈ steps, step.FallsThrough) :
    Replays depth (steps.flatMap Step.expanded) (∀ step ∈ steps, step.ExpandsSilently) s
      (s.after steps) := by
  induction h with
  | nil s => exact .nil depth _ s
  | @cons step steps hrun rest ih =>
    rw [List.forall_mem_cons] at hdepth hsucceeds hthrough
    obtain ⟨st, v, hpasses⟩ := hrun.exists_passes hsucceeds.1
    have hlater := ih (hrun.wellFormed hs) hdepth.2 hsucceeds.2 hthrough.2
    exact (hpasses.replays hs hdepth.1 hthrough.1).append hlater List.forall_mem_cons.mp

/-- **A session that is reflected is evaluated to the same as one program**: what all texts are
expanded to, if no statement returns before the last text and something is left of that. -/
theorem Trace.eval_of_reflects {s : Session} {init : List Step} {last : Step}
    (h : Trace s (init ++ [last])) (hs : s.WellFormed) (hothers : last.others ≠ []) {depth : Nat}
    (hdepth : ∀ step ∈ init ++ [last], step.depth ≤ depth)
    (hsucceeds : ∀ step ∈ init ++ [last], step.Succeeds)
    (hthrough : ∀ step ∈ init, step.FallsThrough) {T : Twin} {j : ScopeId} (hT : T.Reflects s j) :
    ∃ (T' : Twin) (v w : Value), last.answer = .ok v ∧ T'.Reflects (s.after (init ++ [last])) j ∧
      Program.eval depth ((init ++ [last]).flatMap Step.expanded) j T.right = .ok w T'.right ∧
      v.Alike T'.toPairing w ∧
      ((∀ step ∈ init ++ [last], step.ExpandsSilently) →
        WroteSame s.store (s.after (init ++ [last])).store T.right T'.right) := by
  have hwellFormed : ∀ step ∈ init ++ [last], step.before.WellFormed :=
    h.forall_of_step hs fun _ _ hrun hbefore => ⟨hbefore, hrun.wellFormed hbefore⟩
  obtain ⟨hinit, hlast⟩ := h.of_append
  obtain ⟨hbefore, hrun, -⟩ := hlast.of_cons
  simp only [List.forall_mem_append, List.forall_mem_singleton] at hdepth hsucceeds hwellFormed ⊢
  obtain ⟨T₁, u, hT₁, heval, hu, houtput⟩ :=
    hinit.replays hs hdepth.1 hsucceeds.1 hthrough T j .null hT rfl
  obtain ⟨st, v, hpasses⟩ := hrun.exists_passes hsucceeds.2
  rw [← hbefore] at hT₁ houtput
  obtain ⟨T₂, w, hT₂, heval', hvw, houtput'⟩ := hpasses.of_follows hwellFormed.2 hT₁
    (fun _ hscopes => Program.eval_follows hdepth.2 hscopes last.expanded) hpasses.eval
  have hne := Program.ne_nil_of_expandMacros hpasses.expand hothers
  rw [after_append, List.flatMap_append, List.flatMap_singleton]
  exact ⟨T₂, v, w, hpasses.answer, hT₂, (Program.eval_append heval hu hne).trans heval', hvw,
    fun hall => (houtput hall.1).trans (houtput' hall.2)⟩

/-! ## One text instead of many -/

/-- Two sessions **look alike**: they bind the same names to values that are shown alike, and have
macros of the same names. -/
structure LooksLike (s s' : Session) : Prop where
  /-- The same names are bound to values that are shown alike. -/
  bindings : (s.bindings.map fun p => (p.1, p.2.render)) =
    s'.bindings.map fun p => (p.1, p.2.render)
  /-- The macros have the same names. -/
  macroNames : s.macroNames = s'.macroNames

/-- The definitions of a text are those of the program that it is read as. -/
lemma Step.definitions_program (step : Step) : step.definitions = step.program.definitions := by
  rw [definitions, program]
  cases parse step.source <;> rfl

/-- The definitions of texts that are put together, and their other statements. -/
lemma definitions_flatMap (steps : List Step) :
    Program.definitions (steps.flatMap Step.program) = steps.flatMap Step.definitions ∧
      Program.withoutDefinitions (steps.flatMap Step.program) = steps.flatMap Step.others := by
  induction steps with
  | nil => exact ⟨rfl, rfl⟩
  | cons step steps ih =>
    rw [List.flatMap_cons, List.flatMap_cons, List.flatMap_cons, ← ih.1, ← ih.2,
      step.definitions_program]
    exact ⟨List.filterMap_append, List.filter_append _ _⟩

/-- All texts are read, and so are all of them as one text, if they end in semicolons. -/
lemma Trace.parse_join {s : Session} {steps : List Step} (h : Trace s steps)
    (hsucceeds : ∀ step ∈ steps, step.Succeeds)
    (hends : ∀ step ∈ steps, Terminated (lexemes step.source)) :
    parse (String.join (steps.map Step.source)) = .ok (steps.flatMap Step.program) := by
  have hparse : ∀ step ∈ steps, parse step.source = .ok step.program :=
    h.forall_of_step (I := fun _ => True) trivial fun step hmem hrun _ => by
      obtain ⟨_, _, hpasses⟩ := hrun.exists_passes (hsucceeds step hmem)
      exact ⟨hpasses.parse, trivial⟩
  rw [List.flatMap_def]
  refine QuoteLang.parse_join ?_ ?_
  · rintro _ hmem
    obtain ⟨step, hstep, rfl⟩ := List.mem_map.mp hmem
    exact hends step hstep
  · rw [List.forall₂_map_left_iff, List.forall₂_map_right_iff]
    exact List.forall₂_same.mpr hparse

/-- If only the first text defines macros, every text is expanded with the macros that all texts
define, and these are the macros in the end. -/
lemma Trace.macros_of_first {steps : List Step} (h : Trace new steps)
    (hnone : ∀ step ∈ steps.tail, step.definitions = []) (hne : steps ≠ []) {st : Store}
    (hst : st = new.store.defineAll new.macros (steps.flatMap Step.definitions)) :
    ((new.after steps).macros = new.macros ∧
      (new.after steps).store.scopes[new.macros]? = st.scopes[new.macros]?) ∧
    ∀ step ∈ steps, step.before.macros = new.macros ∧
      step.defined.scopes[new.macros]? = st.scopes[new.macros]? := by
  obtain ⟨first, rest, rfl⟩ := List.exists_cons_of_ne_nil hne
  obtain ⟨hbefore, hrun, hrest⟩ := h.of_cons
  have hwellFormed : first.before.WellFormed := hbefore ▸ wellFormed_new
  have hmacros : first.before.macros = new.macros := by rw [hbefore]
  have hfirst : first.defined = st := by
    have hnil : rest.flatMap Step.definitions = [] := List.flatMap_eq_nil_iff.mpr hnone
    rw [hst, List.flatMap_cons, hnil, List.append_nil, Step.defined, hbefore]
  have hlater := hrest.macros_eq (hrun.wellFormed hwellFormed) hnone
  have hscope := (hrun.keepsMacros hwellFormed).after
  rw [hfirst, hmacros] at hscope
  rw [hrun.after_scopes.2, hmacros, hscope] at hlater
  exact ⟨hlater.1, List.forall_mem_cons.mpr ⟨⟨hmacros, by rw [hfirst]⟩, hlater.2⟩⟩

/-- The same can be seen from scopes of macros that are the same. -/
lemma visible_of_holdsMacros {st st' : Store} {macros : ScopeId} {ds : List MacroDef}
    (h : st.HoldsMacros macros ds) (heq : st'.scopes[macros]? = st.scopes[macros]?) :
    st'.visible macros = st.visible macros := by
  obtain ⟨bindings, hscope, -⟩ := h
  rw [Store.visible, Store.visible, heq, hscope]

/-- **Texts may be taken at once.** A new session has taken texts one after the other, each of which
is empty or ends in a semicolon. Only the first has defined macros, and something is left of the
last besides definitions. All texts have answered values that are no errors, and no statement of a
text before the last has returned. Then another new session that takes all of them as one text
answers a value of the same type that is shown alike as the last answer was; and then the two
sessions look alike. They have written the same, provided that no macro has written anything.

**Proof sketch.** The one text is read as all the statements, it defines the same macros, and the
other statements are expanded to the same. So the store in which they are evaluated is reflected in
the store of a new session. From there each text is replayed. -/
theorem Trace.run_join {init : List Step} {last : Step} (h : Trace new (init ++ [last]))
    (hends : ∀ step ∈ init ++ [last], Terminated (lexemes step.source))
    (hnone : ∀ step ∈ (init ++ [last]).tail, step.definitions = []) (hothers : last.others ≠ [])
    (hsucceeds : ∀ step ∈ init ++ [last], step.Succeeds)
    (hthrough : ∀ step ∈ init, step.FallsThrough) {depth : Nat}
    (hdepth : ∀ step ∈ init ++ [last], step.depth ≤ depth) :
    ∃ v w s, last.answer = .ok v ∧
      new.run depth (String.join ((init ++ [last]).map Step.source)) = some (.ok w, s) ∧
      w.type = v.type ∧ w.render = v.render ∧ s.LooksLike (new.after (init ++ [last])) ∧
      ((∀ step ∈ init ++ [last], step.ExpandsSilently) →
        s.store.output = (new.after (init ++ [last])).store.output) := by
  have hparse := h.parse_join hsucceeds hends
  obtain ⟨hdefinitions, hrest⟩ := definitions_flatMap (init ++ [last])
  obtain ⟨⟨hafter, hscope⟩, hmacros⟩ := h.macros_of_first hnone (by simp) rfl
  have hholds := hasMacros_new.scope.defineAll ((init ++ [last]).flatMap Step.definitions)
  obtain ⟨st, hexpand, hext, hsilent⟩ := h.exists_expandMacros hholds hmacros hdepth hsucceeds
  -- The store in which the one program is evaluated reflects a new session.
  have hframed := new.store.defineAll_framed new.macros ((init ++ [last]).flatMap Step.definitions)
  have hglobals : st.scopes[new.globals]? = some ⟨[], none⟩ := by
    rw [hext.scopes_eq _ (Nat.lt_of_lt_of_le wellFormed_new.globals_lt hframed.size_le),
      hframed.scopes_eq _ wellFormed_new.globals_lt wellFormed_new.ne]
    rfl
  obtain ⟨T, hT, rfl⟩ := exists_reflects_new hglobals
  obtain ⟨T', v, w, hanswer, hT', heval, hvw, houtput⟩ :=
    h.eval_of_reflects wellFormed_new hothers hdepth hsucceeds hthrough hT
  let batch : Step := ⟨depth, String.join ((init ++ [last]).map Step.source), new, .ok w,
    ⟨T'.right, new.globals, new.macros⟩⟩
  have hrun : batch.Runs := by
    refine run_of_eval hparse ?_ heval
    rw [expand_apply, hdefinitions, hrest]
    exact hexpand
  -- The macros are those that the one text has defined.
  have hdefined : batch.definitions = (init ++ [last]).flatMap Step.definitions :=
    (Step.definitions_eq (show parse batch.source = _ from hparse)).trans hdefinitions
  have hkept := (hrun.keepsMacros wellFormed_new).after
  rw [Step.defined, hdefined] at hkept
  refine ⟨v, w, _, hanswer, hrun, hvw.type_eq.symm, hvw.render_eq.symm, ⟨?_, ?_⟩, fun hall => ?_⟩
  · have hseen := (T'.visible hT'.globals).render_eq
    rw [hT'.left] at hseen
    exact hseen.symm
  · rw [macroNames, macroNames, hafter, visible_of_holdsMacros hholds hkept,
      visible_of_holdsMacros hholds hscope]
  · obtain ⟨text, hl, hr⟩ := houtput hall
    rw [hl]
    refine hr.trans ?_
    rw [hsilent hall, Store.output_defineAll]

/-- A macro, and a call of it whose value is bound. -/
def macroThenLet : Program :=
  [.letBind "m" (.macroLit [] [.expr (.call (.ident "quote") [.int 1])]),
    .letBind "x" (.call (.ident "m") [])]

/-- A text that defines a macro and binds what a call of it is expanded to, and a text that uses the
name: taken at once, they answer the same. -/
theorem run_join_let : ∃ s₁ s₂ : Session,
    let first : Step :=
      ⟨1, "let m = macro() \x7b quote(1) \x7d; let x = m();", new, .ok (.int 1), s₁⟩
    let second : Step := ⟨0, "x;", s₁, .ok (.int 1), s₂⟩
    Trace new ([first] ++ [second]) ∧
      (∀ step ∈ [first] ++ [second], Terminated (lexemes step.source)) ∧
      (∀ step ∈ ([first] ++ [second]).tail, step.definitions = []) ∧ second.others ≠ [] ∧
      (∀ step ∈ [first] ++ [second], step.Succeeds) ∧ (∀ step ∈ [first], step.FallsThrough) ∧
      (∀ step ∈ [first] ++ [second], step.depth ≤ 1) ∧
      ∃ v w s, second.answer = .ok v ∧
        new.run 1 (String.join (([first] ++ [second]).map Step.source)) = some (.ok w, s) ∧
        w.type = v.type ∧ w.render = v.render ∧ s.LooksLike (new.after ([first] ++ [second])) ∧
        ((∀ step ∈ [first] ++ [second], step.ExpandsSilently) →
          s.store.output = (new.after ([first] ++ [second])).store.output) := by
  have hfirst : parse "let m = macro() \x7b quote(1) \x7d; let x = m();" = .ok macroThenLet :=
    parse_eq_ok_of_toOption (by decide +kernel)
  have hsecond : parse "x;" = .ok [.expr (.ident "x")] :=
    parse_eq_ok_of_toOption (by decide +kernel)
  obtain ⟨st₁, st₂, hexpand, heval, hlookup⟩ : ∃ st₁ st₂,
      expand 1 1 macroThenLet new.store = .ok [.letBind "x" (.int 1)] st₁ ∧
        Program.eval 1 [.letBind "x" (.int 1)] 0 st₁ = .ok (.int 1) st₂ ∧
        Program.eval 0 [.expr (.ident "x")] 0 st₂ = .ok (.int 1) st₂ :=
    ⟨_, _, by with_unfolding_all rfl, by with_unfolding_all rfl, by with_unfolding_all rfl⟩
  refine ⟨⟨st₂, 0, 1⟩, ⟨st₂, 0, 1⟩, ?_⟩
  intro first second
  have hrun₁ : first.Runs := run_of_eval hfirst hexpand heval
  have hrun₂ : second.Runs := by
    refine run_of_eval hsecond ?_ hlookup
    rfl
  have htrace : Trace new ([first] ++ [second]) := .cons hrun₁ (.cons hrun₂ (.nil _))
  have hends : ∀ step ∈ [first] ++ [second], Terminated (lexemes step.source) := by
    have hlast₁ : Terminated (lexemes "let m = macro() \x7b quote(1) \x7d; let x = m();") := by
      decide +kernel
    have hlast₂ : Terminated (lexemes "x;") := by decide +kernel
    exact List.forall_mem_cons.mpr ⟨hlast₁, List.forall_mem_singleton.mpr hlast₂⟩
  have hprogram₁ : first.program = macroThenLet := by rw [Step.program, hfirst]
  have hprogram₂ : second.program = [.expr (.ident "x")] := by rw [Step.program, hsecond]
  have hnone : ∀ step ∈ ([first] ++ [second]).tail, step.definitions = [] := by
    refine List.forall_mem_singleton.mpr ?_
    rw [Step.definitions_program, hprogram₂]
    rfl
  have hothers : second.others ≠ [] := by
    rw [Step.others, hprogram₂]
    exact List.cons_ne_nil _ _
  have hsucceeds : ∀ step ∈ [first] ++ [second], step.Succeeds :=
    List.forall_mem_cons.mpr ⟨⟨_, rfl, rfl⟩, List.forall_mem_singleton.mpr ⟨_, rfl, rfl⟩⟩
  have hthrough : ∀ step ∈ [first], step.FallsThrough := by
    refine List.forall_mem_singleton.mpr fun st hst => ?_
    have hstmts : first.others.expandMacros first.depth first.before.macros first.defined =
        .ok [.letBind "x" (.int 1)] st₁ := by
      rw [Step.others, Step.defined, Step.definitions_program, hprogram₁]
      exact (expand_apply 1 1 macroThenLet new.store).symm.trans hexpand
    have hexpanded : first.expanded = [.letBind "x" (.int 1)] := by
      rw [Step.expanded, hstmts]
    rw [hexpanded]
    intro v st' hv
    obtain ⟨rfl, -⟩ := Outcome.ok.inj hv
    exact ⟨rfl, trivial⟩
  have hdepth : ∀ step ∈ [first] ++ [second], step.depth ≤ 1 :=
    List.forall_mem_cons.mpr ⟨Nat.le_refl _, List.forall_mem_singleton.mpr (Nat.zero_le _)⟩
  exact ⟨htrace, hends, hnone, hothers, hsucceeds, hthrough, hdepth,
    htrace.run_join hends hnone hothers hsucceeds hthrough hdepth⟩

end Session

end QuoteLang
