import Mathlib.Data.List.Induction
import QuoteLang.Proofs.Macros

set_option relaxedAutoImplicit false
set_option autoImplicit false

/-!
# Texts that fail

A text that is no program changes nothing. A text whose expansion fails has defined its macros, and
the bodies of macros may have been evaluated; but all scopes that programs can reach are as they
were. Evaluation alone would not ensure this: the bodies of macros are evaluated inside the scope of
macros, so it must also be shown that programs never get hold of that scope.

## Main definitions

* `Store.Refers`, `Store.Reaches` — one scope refers to another, or leads to it.
* `Twin.Reflects` — a twin in which the scope of programs of a session has a partner, and the scope
  of macros has none.
* `Session.Isolated` — nothing that programs can reach refers to the scope of macros.
* `Session.Step.OnlyDefines` — a text has defined its macros, and changed nothing else.
* `Session.Step.FailsCleanly` — what a text that fails leaves as it is.

## Main results

* `Store.bound_defineAll` — of several definitions of a name the last is bound.
* `Session.Isolated.not_reaches` — programs cannot reach the scope of macros.
* `Session.Trace.failsCleanly` — what texts that fail leave as it is.
-/

namespace QuoteLang

open Run

/-! ## Scopes that can be reached -/

/-- A scope **refers to** another, if that is its outer scope, or if something that it binds refers
to it. -/
def Store.Refers (st : Store) (i j : ScopeId) : Prop :=
  ∃ s, st.scopes[i]? = some s ∧ (s.outer = some j ∨ ∃ p ∈ s.bindings, p.2.RefersTo j)

/-- A scope **reaches** another through scopes that refer to one another. -/
def Store.Reaches (st : Store) : ScopeId → ScopeId → Prop :=
  Relation.ReflTransGen st.Refers

/-- A scope that is referred to by one with a partner has a partner. -/
lemma Twin.exists_scopes_of_refers (T : Twin) {i i' j : ScopeId} (hij : T.scopes i j)
    (h : T.left.Refers i i') : ∃ j', T.scopes i' j' := by
  obtain ⟨s, hs, hrefers⟩ := h
  obtain ⟨_, t, hs', -, hst⟩ := T.alike hij
  obtain rfl := Option.some.inj (hs.symm.trans hs')
  rcases hrefers with houter | ⟨p, hp, hrefers⟩
  · have hrel := hst.outer
    rw [houter] at hrel
    generalize t.outer = outer at hrel
    cases hrel with
    | some ho => exact ⟨_, ho.1⟩
  · obtain ⟨q, hpq⟩ := exists_mem_zip hst.bindings.length_eq hp
    exact (hst.bindings.zip _ hpq).exists_scopes hrefers

/-- **A scope that is reached from one with a partner has a partner.** -/
theorem Twin.exists_scopes_of_reaches (T : Twin) {i i' j : ScopeId} (hij : T.scopes i j)
    (h : T.left.Reaches i i') : ∃ j', T.scopes i' j' := by
  induction h with
  | refl => exact ⟨j, hij⟩
  | tail _ hrefers ih =>
    obtain ⟨_, hij'⟩ := ih
    exact T.exists_scopes_of_refers hij' hrefers

/-- The same scopes are reached, if those that are reached are as they were. -/
lemma Store.reaches_iff_of_scopes_eq {st st' : Store} {i j : ScopeId}
    (h : ∀ k, st.Reaches i k → st'.scopes[k]? = st.scopes[k]?) :
    st'.Reaches i j ↔ st.Reaches i j := by
  constructor
  · intro hreach
    induction hreach with
    | refl => exact .refl
    | tail _ hrefers ih =>
      obtain ⟨s, hs, hrefers⟩ := hrefers
      exact ih.tail ⟨s, (h _ ih).symm.trans hs, hrefers⟩
  · intro hreach
    induction hreach with
    | refl => exact .refl
    | tail hreach hrefers ih =>
      obtain ⟨s, hs, hrefers⟩ := hrefers
      exact ih.tail ⟨s, (h _ hreach).trans hs, hrefers⟩

/-! ## What definitions bind -/

/-- **Of several definitions of a name the last is bound**; a name that is not defined is bound to
what it was bound to before. -/
theorem Store.bound_defineAll {st : Store} {macros : ScopeId} (h : macros < st.scopes.size)
    (ds : List MacroDef) (name : String) :
    match lastDefinition ds name with
    | some d => ∃ v, (st.defineAll macros ds).bound macros name = some v ∧ d.IsMacro macros v
    | none => (st.defineAll macros ds).bound macros name = st.bound macros name := by
  induction ds using List.reverseRecOn with
  | nil => rfl
  | append_singleton ds d ih =>
    have hlt := Nat.lt_of_lt_of_le h (st.defineAll_framed macros ds).size_le
    have hdefine : st.defineAll macros (ds ++ [d]) = (st.defineAll macros ds).define macros d := by
      rw [defineAll, List.foldl_append]
      rfl
    rw [hdefine]
    by_cases hname : name = d.name
    · subst hname
      rw [lastDefinition_append_self]
      exact ⟨_, Store.bound_bind_self hlt _ _, _, rfl⟩
    · have hbound : ((st.defineAll macros ds).define macros d).bound macros name =
          (st.defineAll macros ds).bound macros name := Store.bound_bind_of_ne _ _ hname _
      rw [lastDefinition_append_of_ne ds hname, hbound]
      exact ih

/-! ## Isolation -/

/-- A twin **reflects** a session at a scope: its left store is that of the session, where the scope
of programs corresponds to that scope, and the scope of macros has no partner. No functions are
shared. -/
structure Twin.Reflects (T : Twin) (s : Session) (j : ScopeId) : Prop where
  /-- The left store is that of the session. -/
  left : T.left = s.store
  /-- The scope of programs has a partner. -/
  globals : T.scopes s.globals j
  /-- The scope of macros has none. -/
  macros (k : ScopeId) : ¬T.scopes s.macros k
  /-- No functions are shared. -/
  shared : T.shared = 0

namespace Twin.Reflects

variable {T : Twin} {s : Session} {j : ScopeId}

/-- The left store may be exchanged for one in which no scope is changed but that of macros. -/
lemma exists_withStore (h : T.Reflects s j) {st : Store}
    (hscopes : ∀ i < s.store.scopes.size, i ≠ s.macros → st.scopes[i]? = s.store.scopes[i]?) :
    ∃ T' : Twin, T'.Reflects { s with store := st } j ∧ T'.right = T.right := by
  have hsame {i k : ScopeId} (hik : T.scopes i k) : st.scopes[i]? = T.left.scopes[i]? := by
    have hlt := (T.lt_size hik).1
    rw [h.left] at hlt ⊢
    refine hscopes i hlt ?_
    rintro rfl
    exact h.macros k hik
  have hshared : T.shared ≤ st.closures := h.shared ▸ Nat.zero_le _
  exact ⟨T.replaceLeft st hsame hshared, ⟨rfl, h.globals, h.macros, h.shared⟩, rfl⟩

/-- A session is reflected again after what has been evaluated on both sides: the scopes that have
been made are new, so the scope of macros is not one of them. -/
lemma of_leads (h : T.Reflects s j) (hmacros : s.macros < s.store.scopes.size) {T' : Twin}
    (hT' : T.Leads T') : T'.Reflects { s with store := T'.left } j := by
  refine ⟨rfl, hT'.scopes h.globals, fun k hk => ?_, hT'.shared.trans h.shared⟩
  rcases hT'.fresh hk with hold | hnew
  · exact h.macros k hold
  · rw [h.left] at hnew
    exact Nat.not_lt_of_le hnew.1 hmacros

end Twin.Reflects

namespace Session

/-- **Programs are isolated from the scope of macros** in a session that some twin reflects. -/
def Isolated (s : Session) : Prop :=
  ∃ (T : Twin) (j : ScopeId), T.Reflects s j

/-- What can be reached from the scope of programs has been made, and is not the scope of macros. -/
lemma Isolated.of_reaches {s : Session} (h : s.Isolated) {i : ScopeId}
    (hi : s.store.Reaches s.globals i) : i < s.store.scopes.size ∧ i ≠ s.macros := by
  obtain ⟨T, j, h⟩ := h
  rw [← h.left] at hi ⊢
  obtain ⟨j', hij'⟩ := T.exists_scopes_of_reaches h.globals hi
  refine ⟨(T.lt_size hij').1, ?_⟩
  rintro rfl
  exact h.macros _ hij'

/-- **Programs cannot reach the scope of macros.** -/
theorem Isolated.not_reaches {s : Session} (h : s.Isolated) :
    ¬s.store.Reaches s.globals s.macros :=
  fun hreach => (h.of_reaches hreach).2 rfl

/-- A store in which the scope of programs is still empty reflects a new session. -/
lemma exists_reflects_new {st : Store} (h : st.scopes[new.globals]? = some ⟨[], none⟩) :
    ∃ T : Twin, T.Reflects new new.globals ∧ T.right = st := by
  let T : Twin := .ofBlank (show new.store.scopes[new.globals]? = _ from rfl) h
  exact ⟨T, ⟨rfl, ⟨rfl, rfl⟩, fun _ hk => absurd hk.1 (by decide), rfl⟩, rfl⟩

/-- A new session is isolated. -/
lemma isolated_new : new.Isolated := by
  obtain ⟨T, hT, -⟩ := exists_reflects_new (show new.store.scopes[new.globals]? = _ from rfl)
  exact ⟨T, _, hT⟩

namespace Step

variable {step : Step}

/-- The expansion of a text changes no scope but that of macros. -/
lemma scopes_eq_of_extends {st : Store} (hext : step.defined.Extends st) :
    ∀ i < step.before.store.scopes.size, i ≠ step.before.macros →
      st.scopes[i]? = step.before.store.scopes[i]? := by
  intro i hi hne
  have hframed := step.framed_defined
  rw [hext.scopes_eq i (Nat.lt_of_lt_of_le hi hframed.size_le), hframed.scopes_eq i hi hne]

/-- A step keeps a session isolated. -/
lemma Runs.isolated (hrun : step.Runs) (hbefore : step.before.WellFormed)
    (h : step.before.Isolated) : step.after.Isolated := by
  obtain ⟨T, j, hT⟩ := h
  rcases hrun.outcomes with ⟨e, -, -, hafter⟩ | ⟨program, f, st, -, hexpand, -, hafter⟩ |
    ⟨program, program', st, v, st', -, hexpand, hvalue, -, hafter⟩
  · rw [hafter]
    exact ⟨T, j, hT⟩
  · have hext := (Program.expandMacros_extends _ _ _ _).of_fault hexpand
    obtain ⟨T', hT', -⟩ := hT.exists_withStore (scopes_eq_of_extends hext)
    rw [hafter]
    exact ⟨T', j, hT'⟩
  · have hext := (Program.expandMacros_extends _ _ _ _).of_ok hexpand
    have hmacros := Nat.lt_of_lt_of_le
      (Nat.lt_of_lt_of_le hbefore.macros_lt step.framed_defined.size_le) hext.size_le
    obtain ⟨T', hT', -⟩ := hT.exists_withStore (scopes_eq_of_extends hext)
    obtain rfl : T'.left = st := hT'.left
    obtain ⟨T'', w, hleads, rfl, -, -⟩ :=
      (Program.eval_follows (Nat.le_refl step.depth) hT'.globals program').of_value? hvalue
    rw [hafter]
    exact ⟨T'', j, hT'.of_leads hmacros hleads⟩

/-! ## Failures -/

/-- A text **has only defined its macros**: whatever can be reached from the scope of programs is as
it was, and the scope of macros binds the definitions of the text besides what it did before. -/
structure OnlyDefines (step : Step) : Prop where
  /-- The session has the same scope of programs. -/
  globals_eq : step.after.globals = step.before.globals
  /-- It has the same scope of macros. -/
  macros_eq : step.after.macros = step.before.macros
  /-- The same scopes can be reached from the scope of programs. -/
  reaches_iff (i : ScopeId) : step.after.store.Reaches step.before.globals i ↔
    step.before.store.Reaches step.before.globals i
  /-- These scopes are as they were. -/
  reached {i : ScopeId} : step.before.store.Reaches step.before.globals i →
    step.after.store.scopes[i]? = step.before.store.scopes[i]?
  /-- So are all others, except for the scope of macros. -/
  others : ∀ i < step.before.store.scopes.size, i ≠ step.before.macros →
    step.after.store.scopes[i]? = step.before.store.scopes[i]?
  /-- The scope of macros is as the definitions of the text leave it, one after the other. -/
  defined : step.after.store.scopes[step.before.macros]? = step.defined.scopes[step.before.macros]?
  /-- So a name that is defined is bound to the macro of its last definition, and any other name to
  what it was bound to before. -/
  bound (name : String) : match lastDefinition step.definitions name with
    | some d => ∃ v, step.after.store.bound step.before.macros name = some v ∧
      d.IsMacro step.before.macros v
    | none => step.after.store.bound step.before.macros name =
      step.before.store.bound step.before.macros name

/-- **What a text that fails leaves as it is**: everything if it is no program, and everything but
its definitions if its expansion fails. -/
structure FailsCleanly (step : Step) : Prop where
  /-- A text that is no program changes nothing and writes nothing. -/
  parse {e : ParseError} : step.answer = .error (.parse e) → step.after = step.before
  /-- A text whose expansion fails has only defined its macros. -/
  expansion {f : ExpansionFault} : step.answer = .error (.expansion f) → step.OnlyDefines

/-- A text whose expansion fails has only defined its macros. -/
lemma onlyDefines_of_extends (hbefore : step.before.WellFormed) (hisolated : step.before.Isolated)
    {st : Store} (hext : step.defined.Extends st)
    (hafter : step.after = { step.before with store := st }) : step.OnlyDefines := by
  have hothers := scopes_eq_of_extends hext
  have hreached (i : ScopeId) (hi : step.before.store.Reaches step.before.globals i) :
      st.scopes[i]? = step.before.store.scopes[i]? := by
    obtain ⟨hlt, hne⟩ := hisolated.of_reaches hi
    exact hothers i hlt hne
  have hdefined : st.scopes[step.before.macros]? = step.defined.scopes[step.before.macros]? :=
    hext.scopes_eq _ (Nat.lt_of_lt_of_le hbefore.macros_lt step.framed_defined.size_le)
  have hbound (name : String) :
      st.bound step.before.macros name = step.defined.bound step.before.macros name := by
    rw [Store.bound, Store.bound, hdefined]
  refine ⟨?_, ?_, fun i => ?_, ?_, ?_, ?_, fun name => ?_⟩ <;> rw [hafter]
  · exact Store.reaches_iff_of_scopes_eq hreached
  · exact hreached _
  · exact hothers
  · exact hdefined
  · rw [hbound]
    exact Store.bound_defineAll hbefore.macros_lt step.definitions name

/-- A text that fails leaves a session as it is, but for its definitions. -/
lemma failsCleanly_of_runs (hrun : step.Runs) (hbefore : step.before.WellFormed)
    (hisolated : step.before.Isolated) : step.FailsCleanly := by
  rcases hrun.outcomes with ⟨e, -, hanswer, hafter⟩ |
    ⟨program, f, st, -, hexpand, hanswer, hafter⟩ | ⟨_, _, _, v, _, -, -, -, hanswer, -⟩
  all_goals
    refine ⟨fun {e} h => ?_, fun {f} h => ?_⟩
    all_goals rw [hanswer] at h
  · exact hafter
  · cases h
  · cases h
  · exact onlyDefines_of_extends hbefore hisolated
      ((Program.expandMacros_extends _ _ _ _).of_fault hexpand) hafter
  · cases h
  · cases h

end Step

/-- **What texts that fail leave as it is**, in a session that takes one text after the other: a
text that is no program changes nothing at all, neither a scope nor what has been written. If the
expansion of a text fails, the scope of programs is as it was, and so is every scope that can be
reached from it; the scope of macros binds the definitions of the text besides, the last one of each
name. The bodies of macros that have been evaluated before the failure have no part in this.

**Proof sketch.** Expansion changes no scope, since the bodies of macros are evaluated in new
scopes. Definitions change the scope of macros. That is not reached from the scope of programs,
because programs are isolated from it throughout: an evaluation in the scope of programs only makes
new scopes, and refers to what it has reached. -/
theorem Trace.failsCleanly {steps : List Step} (h : Trace new steps) :
    ∀ step ∈ steps, step.FailsCleanly :=
  h.forall_of_step (I := fun s => s.WellFormed ∧ s.Isolated) ⟨wellFormed_new, isolated_new⟩
    fun _ _ hrun hs =>
      ⟨Step.failsCleanly_of_runs hrun hs.1 hs.2, hrun.wellFormed hs.1, hrun.isolated hs.1 hs.2⟩

/-- A macro that writes a line and yields no quotation, and a call of it. -/
def noQuoteCall : Program :=
  [.letBind "m" (.macroLit [] [.expr (.call (.ident "puts") [.int 1])]),
    .expr (.call (.ident "m") [])]

/-- A text that is no program, and a text whose expansion fails after it has defined a macro and
written a line. -/
theorem failsCleanly_noQuote :
    ∃ (e : ParseError) (s : Session),
      let first : Step := ⟨1, "let = 1;", new, .error (.parse e), new⟩
      let second : Step := ⟨1, "let m = macro() \x7b puts(1) \x7d; m();", new,
        .error (.expansion (.noQuote "m" .null)), s⟩
      Trace new [first, second] ∧ s.store.output = "1\n" ∧
        ∀ step ∈ [first, second], step.FailsCleanly := by
  obtain ⟨e, hfirst⟩ : ∃ e, parse "let = 1;" = .error e := by
    cases h : parse "let = 1;" with
    | error e => exact ⟨e, rfl⟩
    | ok program =>
      have hnone : (parse "let = 1;").toOption = none := by decide +kernel
      rw [h] at hnone
      cases hnone
  have hsecond : parse "let m = macro() \x7b puts(1) \x7d; m();" = .ok noQuoteCall :=
    parse_eq_ok_of_toOption (by decide +kernel)
  obtain ⟨st, hexpand, houtput⟩ : ∃ st,
      expand 1 1 noQuoteCall new.store = .fault (.noQuote "m" .null) st ∧ st.output = "1\n" :=
    ⟨_, by with_unfolding_all rfl, by with_unfolding_all rfl⟩
  refine ⟨e, ⟨st, 0, 1⟩, ?_⟩
  intro first second
  have hrun₁ : first.Runs := run_of_parse_error hfirst
  have hrun₂ : second.Runs := run_of_expansion_fault hsecond hexpand
  have htrace : Trace new [first, second] := .cons hrun₁ (.cons hrun₂ (.nil _))
  exact ⟨htrace, houtput, htrace.failsCleanly⟩

end Session

end QuoteLang
