import Mathlib.Data.List.Zip
import QuoteLang.Proofs.WellFormed
import QuoteLang.Proofs.Writes
import QuoteLang.Value.Equality

set_option relaxedAutoImplicit false
set_option autoImplicit false

/-!
# Calls that are repeated

A call leaves scopes behind that nothing refers to, and functions that have been made; but it
changes no scope that was there before. So the store before a call and the store after it are twins,
in which every scope that was there before corresponds to itself. What is called after the call does
what it would have done without it.

## Main definitions

* `Value.OlderThan` — no function inside a value has been made after a store.
* `Run.SameFrom` — a run does from one store what it does from another.

## Main results

* `Value.Alike.same` — values that are alike are equal, if all functions inside are shared.
* `Value.apply_repeats` — a call that is repeated does the same again, and so does every other call
  after it.
-/

namespace QuoteLang

open Run

/-! ## Equality of values that are alike -/

/-- No function or macro inside a value has been made after a store. -/
def Value.OlderThan (st : Store) (v : Value) : Prop :=
  ∀ c, v.Holds (.function c) ∨ v.Holds (.macroFn c) → c.id < st.closures

/-- **Values that are alike are equal**, if all functions and macros inside are shared. -/
theorem Value.Alike.same {M : Pairing} {v w : Value} (h : v.Alike M w)
    (hshared : ∀ c, v.Holds (.function c) ∨ v.Holds (.macroFn c) → c.id < M.shared) :
    w.same v = true := by
  induction h with
  | int | bool | str | builtin | error | quote =>
    rw [Value.same]
    exact beq_self_eq_true _
  | null => rw [Value.same]
  | @array vs ws hlen _ ih =>
    rw [Value.same]
    refine sameValues_of_zip hlen.symm fun p hp => ?_
    have hmem := (List.of_mem_zip hp).2
    rw [← List.zip_swap, List.mem_map] at hp
    obtain ⟨p, hp, rfl⟩ := hp
    exact ih p hp fun c hc => hshared c (hc.imp (.item hmem) (.item hmem))
  | @hash ps qs hkeys hnodup h ih =>
    have halike := EntriesAlike.of_keys_eq hkeys h
    rw [Value.same, halike.length_eq, beq_self_eq_true, Bool.true_and]
    refine containsAll_of_lookup fun e' he' => ?_
    obtain ⟨e, hp⟩ := exists_mem_zip halike.length_eq.symm he'
    rw [← List.zip_swap, List.mem_map] at hp
    obtain ⟨⟨e, e'⟩, hp, ⟨⟩⟩ := hp
    have he := (List.of_mem_zip hp).1
    have hkey : e.1 = e'.1 := ((List.forall₂_iff_zip.mp halike).2 hp).1
    refine ⟨e.2, ?_, ih _ hp fun c hc => hshared c (hc.imp (.value he) (.value he))⟩
    rw [← hkey]
    exact Assoc.lookup_of_mem hnodup he
  | @function c d h =>
    rw [Value.same, h.id (hshared c (.inl (.self _)))]
    exact beq_self_eq_true _
  | @macroFn c d h =>
    rw [Value.same, h.id (hshared c (.inr (.self _)))]
    exact beq_self_eq_true _
  | returned _ ih =>
    rw [Value.same]
    exact ih fun c hc => hshared c (hc.imp .payload .payload)

/-! ## Calls -/

/-- A run does **the same from another store** as it does from a store: if it ends with a value
here, it also ends with a value there. It writes the same text, and the values have the same type
and are shown alike; and they are equal, if no function inside has been made after the store. -/
def Run.SameFrom (x : Run Fault Value) (other st : Store) : Prop :=
  ∀ r st', (x st).value? = some (r, st') → ∃ r' other' text,
    (x other).value? = some (r', other') ∧
    st'.output = st.output ++ text ∧ other'.output = other.output ++ text ∧
    r'.type = r.type ∧ r'.render = r.render ∧ (r.OlderThan st → r'.same r = true)

/-- A run that follows itself does the same from a store that extends the one it starts in. -/
lemma Run.Follows.sameFrom {st other : Store} (hst : st.WellFormed) (hext : st.Extends other)
    {x : Run Fault Value} (h : Follows (.ofExtends hst hext) Value.Alike x x) :
    x.SameFrom other st := by
  intro r st' hr
  obtain ⟨T, w, hT, rfl, hy, hvw⟩ := h.of_value? hr
  obtain ⟨text, hleft, hright⟩ := hT.output
  refine ⟨w, T.right, text, hy, hleft, hright, hvw.type_eq.symm, hvw.render_eq.symm, fun hold => ?_⟩
  exact hvw.same fun c hc => hT.shared ▸ hold c hc

/-- **Calls are repeatable**: if a call ends with a value, then right after it the same call ends
with a value again. It writes the same text again, and its value has the same type and is shown
alike; and it is equal to the first, if that contains no function or macro that was made during the
call. The call also leaves nothing behind that any other call would observe.

**Proof sketch.** A call changes no scope that was there before. So the stores before and after it
are twins, in which each of these scopes corresponds to itself, and calls go alike in both. -/
theorem Value.apply_repeats {depth : Nat} {st st₁ : Store} {f r : Value} {args : List Value}
    (hst : st.WellFormed) (hf : f.Fits st) (hargs : ∀ v ∈ args, v.Fits st)
    (h : (f.apply depth args st).value? = some (r, st₁)) :
    (∃ r' st₂ text, (f.apply depth args st₁).value? = some (r', st₂) ∧
      st₁.output = st.output ++ text ∧ st₂.output = st₁.output ++ text ∧
      r'.type = r.type ∧ r'.render = r.render ∧ (r.OlderThan st → r'.same r = true)) ∧
    ∀ (depth' : Nat) (g : Value) (args' : List Value), g.Fits st → (∀ v ∈ args', v.Fits st) →
      (g.apply depth' args').SameFrom st₁ st := by
  have hext : st.Extends st₁ := ((applyWith_extends depth f args st).of_value? h).elim id And.right
  have hsame (depth' : Nat) (g : Value) (args' : List Value) (hg : g.Fits st)
      (hargs' : ∀ v ∈ args', v.Fits st) : (g.apply depth' args').SameFrom st₁ st := by
    exact Follows.sameFrom hst hext
      (Value.apply_follows (Nat.le_refl _) hg.alike (Store.alike_of_forall_fits hargs'))
  exact ⟨hsame depth f args hf hargs r st₁ h, hsame⟩

/-- A function that writes its argument on a line, and yields it in an array. -/
def showAndWrap : Value :=
  .function ⟨0, ["a"], [.expr (.call (.ident "puts") [.ident "a"]), .expr (.array [.ident "a"])], 0⟩

/-- Both calls write a line and yield the same array. -/
theorem Value.apply_repeats_wrap :
    let st := Session.new.store
    ∃ st₁, st.WellFormed ∧ showAndWrap.Fits st ∧ (∀ v ∈ [Value.int 5], v.Fits st) ∧
      (showAndWrap.apply 2 [.int 5] st).value? = some (.array [.int 5], st₁) ∧
      st₁.output = "5\n" ∧
      ∃ r' st₂ text, (showAndWrap.apply 2 [.int 5] st₁).value? = some (r', st₂) ∧
        st₁.output = st.output ++ text ∧ st₂.output = st₁.output ++ text ∧
        r'.type = .array ∧ r'.render = (Value.array [.int 5]).render ∧
        ((Value.array [.int 5]).OlderThan st → r'.same (.array [.int 5]) = true) := by
  intro st
  have hst : st.WellFormed := Session.wellFormed_new.store
  have hf : showAndWrap.Fits st := by
    refine ⟨?_, nofun⟩
    rintro i ⟨c, hc | hc, rfl⟩ <;> cases hc
    exact Session.wellFormed_new.globals_lt
  have hargs : ∀ v ∈ [Value.int 5], v.Fits st := by
    rw [List.forall_mem_singleton]
    refine ⟨?_, nofun⟩
    rintro i ⟨c, hc | hc, -⟩ <;> cases hc
  obtain ⟨st₁, happly, houtput⟩ : ∃ st₁,
      (showAndWrap.apply 2 [.int 5] st).value? = some (.array [.int 5], st₁) ∧
        st₁.output = "5\n" :=
    ⟨_, by with_unfolding_all rfl, by with_unfolding_all rfl⟩
  exact ⟨st₁, hst, hf, hargs, happly, houtput, (apply_repeats hst hf hargs happly).1⟩

end QuoteLang
