import QuoteLang.Proofs.Errors
import QuoteLang.Proofs.Parallel

set_option relaxedAutoImplicit false
set_option autoImplicit false

/-!
# Well-formed stores

In a well-formed store every scope that is referred to has been made, outer scopes are older, and no
key comes twice in a hash. Such a store is its own twin, where every scope corresponds to itself. So
whatever is run in it follows itself, and the store after it is well-formed again.

## Main definitions

* `Value.RefersTo`, `Value.Fits` — the scopes that a value refers to, and that they are scopes of a
  store.
* `Store.WellFormed` — the stores that are well-formed.
* `Twin.ofExtends` — a well-formed store with one that extends it, where every scope corresponds to
  itself.

## Main results

* `Run.Follows.wellFormed` — a run that follows itself leaves a well-formed store.
* `Session.Trace.wellFormed` — in a session that takes one text after the other, all stores are
  well-formed.
-/

namespace QuoteLang

open Run

/-! ## Stores -/

/-- A value **refers to** a scope if a function or macro inside it does. -/
def Value.RefersTo (v : Value) (i : ScopeId) : Prop :=
  ∃ c, (v.Holds (.function c) ∨ v.Holds (.macroFn c)) ∧ c.scope = i

/-- A value **fits** a store: the scopes that it refers to have been made, and no key comes twice in
a hash inside it. -/
structure Value.Fits (st : Store) (v : Value) : Prop where
  /-- The scopes have been made. -/
  lt_size {i : ScopeId} : v.RefersTo i → i < st.scopes.size
  /-- No key comes twice. -/
  nodup {entries : List (Key × Value)} : v.Holds (.hash entries) → (entries.map Prod.fst).Nodup

/-- What is inside a value that fits fits. -/
lemma Value.Fits.of_holds {st : Store} {v w : Value} (h : v.Fits st) (hw : v.Holds w) :
    w.Fits st where
  lt_size := fun ⟨c, hc, hscope⟩ => h.lt_size ⟨c, hc.imp hw.trans hw.trans, hscope⟩
  nodup hentries := h.nodup (hw.trans hentries)

/-- A store is **well-formed** if outer scopes are older and all that is bound fits it. -/
structure Store.WellFormed (st : Store) : Prop where
  /-- An outer scope is older. -/
  outer_lt {i : ScopeId} {s : Scope} {o : ScopeId} : st.scopes[i]? = some s → s.outer = some o →
    o < i
  /-- What is bound fits. -/
  fits : st.All (Value.Fits st)

/-- The pairing in which every scope of a store corresponds to itself and all functions are
shared. -/
def Store.identity (st : Store) : Pairing :=
  ⟨fun i j => i = j ∧ i < st.scopes.size, st.closures⟩

/-- A value that fits a store is alike to itself. -/
lemma Value.Fits.alike {st : Store} {v : Value} (h : v.Fits st) : v.Alike st.identity v := by
  have closure {c : Closure} (hc : c.scope < st.scopes.size) : c.Alike st.identity c :=
    ⟨rfl, rfl, ⟨rfl, hc⟩, fun _ => rfl⟩
  induction v using Value.induction with
  | int n => exact .int n
  | bool b => exact .bool b
  | str s => exact .str s
  | array items ih =>
    refine alike_array_iff.mpr (List.forall₂_same.mpr fun v hv => ih v hv ?_)
    exact h.of_holds (.item hv (.self v))
  | hash entries ih =>
    refine alike_hash_iff.mpr ⟨h.nodup (.self _), List.forall₂_same.mpr fun e he => ⟨rfl, ?_⟩⟩
    exact ih e he (h.of_holds (.value he (.self e.2)))
  | function c => exact .function (closure (h.lt_size ⟨c, .inl (.self _), rfl⟩))
  | builtin b => exact .builtin b
  | macroFn c => exact .macroFn (closure (h.lt_size ⟨c, .inr (.self _), rfl⟩))
  | returned v ih => exact .returned (ih (h.of_holds (.payload (.self v))))
  | error message => exact .error message
  | quote e => exact .quote e
  | null => exact .null

/-- Values that fit a store are alike to themselves. -/
lemma Store.alike_of_forall_fits {st : Store} {vs : List Value} (h : ∀ v ∈ vs, v.Fits st) :
    List.Forall₂ (Value.Alike st.identity) vs vs :=
  List.forall₂_same.mpr fun v hv => (h v hv).alike

/-- What is inside a value is alike to something. -/
lemma Value.Alike.of_holds {M : Pairing} {v w u : Value} (h : v.Alike M w) (hu : v.Holds u) :
    ∃ u', u.Alike M u' := by
  have hself := h
  induction h with
  | int | bool | str | builtin | error | quote | null | function | macroFn =>
    cases hu
    exact ⟨_, hself⟩
  | array hlen h ih =>
    cases hu with
    | self => exact ⟨_, hself⟩
    | item hv hu =>
      obtain ⟨w, hp⟩ := exists_mem_zip hlen hv
      exact ih _ hp hu (h _ hp)
  | hash hkeys hnodup h ih =>
    cases hu with
    | self => exact ⟨_, hself⟩
    | @key _ e he =>
      refine ⟨e.1.toValue, ?_⟩
      cases e.1 with
      | int n => exact .int n
      | bool b => exact .bool b
      | str s => exact .str s
    | value he hu =>
      obtain ⟨e', hp⟩ := exists_mem_zip (EntriesAlike.of_keys_eq hkeys h).length_eq he
      exact ih _ hp hu (h _ hp)
  | returned h ih =>
    cases hu with
    | self => exact ⟨_, hself⟩
    | payload hu => exact ih hu h

/-- A scope that one of two values refers to that are alike has a partner. -/
lemma Value.Alike.exists_scopes {M : Pairing} {v w : Value} (h : v.Alike M w) {i : ScopeId}
    (hi : v.RefersTo i) : ∃ j, M.scopes i j := by
  obtain ⟨c, hc | hc, rfl⟩ := hi
  · obtain ⟨_, ⟨⟩⟩ := h.of_holds hc
    rename_i hcd
    exact ⟨_, hcd.scope⟩
  · obtain ⟨_, ⟨⟩⟩ := h.of_holds hc
    rename_i hcd
    exact ⟨_, hcd.scope⟩

/-- What is alike to something fits the left store. -/
lemma Value.Alike.fits {T : Twin} {v w : Value} (h : v.Alike T.toPairing w) : v.Fits T.left where
  lt_size hi := by
    obtain ⟨j, hij⟩ := h.exists_scopes hi
    exact (T.lt_size hij).1
  nodup hentries := by
    obtain ⟨_, ⟨⟩⟩ := h.of_holds hentries
    assumption

/-- A well-formed store is a twin of every store that extends it. Each scope corresponds to itself,
and the functions made so far are shared. -/
def Twin.ofExtends {st st' : Store} (hst : st.WellFormed) (hext : st.Extends st') : Twin where
  toPairing := st.identity
  left := st
  right := st'
  alike := by
    rintro i _ ⟨rfl, hi⟩
    have hs := Array.getElem?_eq_getElem hi
    refine ⟨st.scopes[i], st.scopes[i], hs, (hext.scopes_eq i hi).trans hs, ?_, ?_⟩
    · exact List.forall₂_same.mpr fun p hp => ⟨rfl, (hst.fits i _ hs p hp).alike⟩
    · cases ho : st.scopes[i].outer with
      | none => exact .none
      | some o =>
        have hlt := hst.outer_lt hs ho
        exact .some ⟨⟨rfl, Nat.lt_trans hlt hi⟩, hlt, hlt⟩
  unique := by
    rintro i _ i' _ ⟨rfl, -⟩ ⟨rfl, -⟩
    exact Iff.rfl
  shared_le := Nat.le_refl _

/-- There every scope corresponds to itself. -/
lemma Twin.scopes_ofExtends {st st' : Store} (hst : st.WellFormed) (hext : st.Extends st')
    {i : ScopeId} (hi : i < st.scopes.size) : (Twin.ofExtends hst hext).scopes i i :=
  ⟨rfl, hi⟩

/-- If every scope on the left has a partner, the left store is well-formed. -/
lemma Twin.wellFormed_left (T : Twin) (h : ∀ i < T.left.scopes.size, ∃ j, T.scopes i j) :
    T.left.WellFormed := by
  refine ⟨fun {i s o} hs ho => ?_, fun i s hs p hp => ?_⟩
  all_goals
    obtain ⟨j, hij⟩ := h i (Array.getElem?_eq_some_iff.mp hs).1
    obtain ⟨_, t, hs', -, hst⟩ := T.alike hij
    obtain rfl := Option.some.inj (hs.symm.trans hs')
  · have houter := hst.outer
    rw [ho] at houter
    generalize t.outer = outer at houter
    cases houter with
    | some ho => exact ho.2.1
  · obtain ⟨q, hpq⟩ := exists_mem_zip hst.bindings.length_eq hp
    exact (hst.bindings.zip _ hpq).fits

/-- **A run that follows itself leaves a well-formed store**, in which no scope is lost. -/
theorem Run.Follows.wellFormed {ε α β : Type} {st : Store} (hst : st.WellFormed)
    {R : Pairing → α → β → Prop} {x : Run ε α} {y : Run ε β}
    (h : Follows (.ofExtends hst (.refl st)) R x y) :
    x.Ensures st (fun _ st' => st'.WellFormed ∧ st.scopes.size ≤ st'.scopes.size)
      fun st' => st'.WellFormed ∧ st.scopes.size ≤ st'.scopes.size := by
  have hleads {T' : Twin} (hT' : (Twin.ofExtends hst (.refl st)).Leads T') :
      T'.left.WellFormed ∧ st.scopes.size ≤ T'.left.scopes.size := by
    refine ⟨T'.wellFormed_left fun i hi => ?_, hT'.size_le.1⟩
    rcases Nat.lt_or_ge i st.scopes.size with hlt | hle
    · exact ⟨i, hT'.scopes ⟨rfl, hlt⟩⟩
    · exact hT'.covered hle hi
  refine .intro (fun a st' hx => ?_) fun e st' hx => ?_
  · obtain ⟨T', b, hT', rfl, -, -⟩ := h.of_ok hx
    exact hleads hT'
  · obtain ⟨T', hT', rfl, -⟩ := h.of_fault hx
    exact hleads hT'

/-! ## Sessions -/

namespace Session

/-- A session is **well-formed** if its store is, and its two scopes have been made and are
different. -/
structure WellFormed (s : Session) : Prop where
  /-- The store is well-formed. -/
  store : s.store.WellFormed
  /-- The scope of programs has been made. -/
  globals_lt : s.globals < s.store.scopes.size
  /-- The scope of macros has been made. -/
  macros_lt : s.macros < s.store.scopes.size
  /-- The two scopes are different. -/
  ne : s.globals ≠ s.macros

/-- The scopes of a new session bind nothing and have no outer scopes. -/
lemma scope_new {i : ScopeId} {s : Scope} (h : new.store.scopes[i]? = some s) :
    s = ⟨[], none⟩ := by
  have hscopes : new.store.scopes = #[⟨[], none⟩, ⟨[], none⟩] := rfl
  rw [hscopes] at h
  match i with
  | 0 | 1 => exact (Option.some.inj h).symm
  | i + 2 => cases h

/-- A new session is well-formed. -/
lemma wellFormed_new : new.WellFormed where
  store := by
    refine ⟨fun hs ho => ?_, fun i s hs p hp => ?_⟩
    · obtain rfl := scope_new hs
      cases ho
    · obtain rfl := scope_new hs
      cases hp
  globals_lt := by decide
  macros_lt := by decide
  ne := by decide

/-- A step keeps a session well-formed.

**Proof sketch.** A well-formed store is its own twin. Expansion and evaluation follow themselves
there, so they leave well-formed stores. -/
theorem Step.Runs.wellFormed {step : Step} (hrun : step.Runs) (h : step.before.WellFormed) :
    step.after.WellFormed := by
  have withStore {st : Store} (hst : st.WellFormed)
      (hsize : step.before.store.scopes.size ≤ st.scopes.size) :
      WellFormed { step.before with store := st } :=
    ⟨hst, Nat.lt_of_lt_of_le h.globals_lt hsize, Nat.lt_of_lt_of_le h.macros_lt hsize, h.ne⟩
  have hexpand (program : Program) := Follows.wellFormed h.store
    (expand_follows (Nat.le_refl step.depth) (Twin.scopes_ofExtends _ _ h.macros_lt) program)
  rcases hrun.cases with ⟨e, -, -, hafter⟩ | ⟨program, f, st, -, hfault, -, hafter⟩ |
    ⟨program, program', st, v, st', -, hok, hvalue, -, hafter⟩
  · rw [hafter]
    exact h
  · obtain ⟨hst, hsize⟩ := (hexpand program).of_fault hfault
    rw [hafter]
    exact withStore hst hsize
  · obtain ⟨hst, hsize⟩ := (hexpand program).of_ok hok
    have hglobals := Nat.lt_of_lt_of_le h.globals_lt hsize
    have heval := Follows.wellFormed hst
      (Program.eval_follows (Nat.le_refl step.depth) (Twin.scopes_ofExtends _ _ hglobals) program')
    obtain ⟨hst', hsize'⟩ := (heval.of_value? hvalue).elim id And.right
    rw [hafter]
    exact withStore hst' (Nat.le_trans hsize hsize')

/-- **All stores are well-formed** in a session that takes one text after the other. -/
theorem Trace.wellFormed {steps : List Step} (h : Trace new steps) :
    ∀ step ∈ steps, step.before.WellFormed ∧ step.after.WellFormed :=
  h.forall_of_step wellFormed_new fun _ _ hrun hs =>
    ⟨⟨hs, hrun.wellFormed hs⟩, hrun.wellFormed hs⟩

end Session

end QuoteLang
