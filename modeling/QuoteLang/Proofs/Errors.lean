import QuoteLang.Proofs.Trace

set_option relaxedAutoImplicit false
set_option autoImplicit false

/-!
# Where errors are kept

An error ends whatever is computed around it. It may be the answer to a text, but it is never put
away: no scope binds one, and none is inside an array, a hash, or a value on its way out of a
function. So no error is met again after the text that has made it.

## Main definitions

* `Value.Holds` — what is inside a value, at any depth.
* `Store.Keeps` — what is inside a value that is bound in a scope.
* `Session.Step.NoError` — after a step no error is kept, and no name and no index brings one back.

## Main results

* `Session.Trace.keeps_noError` — in a session that takes one text after the other, no step leaves
  an error behind, whether it ends with a value or with an error.
-/

namespace QuoteLang

open Run

/-! ## What is inside a value -/

/-- What is inside a value: the value itself, and what is inside the items of an array, the keys and
values of a hash, and the payload of a value on its way out of a function. -/
inductive Value.Holds : Value → Value → Prop
  /-- A value is inside itself. -/
  | self (v : Value) : Holds v v
  /-- What is inside an item is inside the array. -/
  | item {items : List Value} {v w : Value} (hv : v ∈ items) (h : Holds v w) :
      Holds (.array items) w
  /-- A key is inside the hash. -/
  | key {entries : List (Key × Value)} {e : Key × Value} (he : e ∈ entries) :
      Holds (.hash entries) e.1.toValue
  /-- What is inside a value of a hash is inside the hash. -/
  | value {entries : List (Key × Value)} {e : Key × Value} {w : Value} (he : e ∈ entries)
      (h : Holds e.2 w) : Holds (.hash entries) w
  /-- What is inside the payload is inside the value on its way out. -/
  | payload {v w : Value} (h : Holds v w) : Holds (.returned v) w

/-- No error is inside a value. -/
def Value.NoError (v : Value) : Prop := ∀ w, v.Holds w → w.isError = false

/-- What is inside a value that is bound in a scope of a store. -/
def Store.Keeps (st : Store) (w : Value) : Prop :=
  ∃ (i : ScopeId) (s : Scope), st.scopes[i]? = some s ∧ ∃ p ∈ s.bindings, p.2.Holds w

namespace Value

/-- A key is no error. -/
lemma isError_toValue (k : Key) : k.toValue.isError = false := by
  cases k <;> rfl

/-- What is inside something inside a value is inside the value. -/
lemma Holds.trans {u v w : Value} (huv : u.Holds v) (hvw : v.Holds w) : u.Holds w := by
  induction huv with
  | self => exact hvw
  | item hv h ih => exact .item hv (ih hvw)
  | @key entries e he =>
    obtain rfl : e.1.toValue = w := by
      cases hkey : e.1 <;> rw [hkey] at hvw <;> cases hvw <;> rfl
    exact .key he
  | value he h ih => exact .value he (ih hvw)
  | payload h ih => exact .payload (ih hvw)

/-- Values that have no error inside are passed between data and their parts. -/
lemma hereditary_noError : Hereditary NoError where
  int _ := by rintro _ ⟨⟩; rfl
  bool _ := by rintro _ ⟨⟩; rfl
  str _ := by rintro _ ⟨⟩; rfl
  function _ := by rintro _ ⟨⟩; rfl
  builtin _ := by rintro _ ⟨⟩; rfl
  macroFn _ := by rintro _ ⟨⟩; rfl
  quote _ := by rintro _ ⟨⟩; rfl
  null := by rintro _ ⟨⟩; rfl
  array_iff := by
    refine ⟨fun h v hv w hw => h w (.item hv hw), fun h w hw => ?_⟩
    cases hw with
    | self => rfl
    | item hv hw => exact h _ hv w hw
  hash_iff := by
    refine ⟨fun h e he w hw => h w (.value he hw), fun h w hw => ?_⟩
    cases hw with
    | self => rfl
    | key he => exact isError_toValue _
    | value he hw => exact h _ he w hw
  of_returned h := fun w hw => h w (.payload hw)

/-- What is on its way out of a function has no error inside if its payload has none. -/
lemma Out.noError {v : Value} (h : v.Out NoError) : v.NoError := by
  rcases h with h | ⟨w, rfl, hw⟩
  · exact h
  · intro u hu
    cases hu with
    | self => rfl
    | payload hu => exact hw u hu

end Value

/-! ## Errors that are met again -/

/-- Settling on a value ends with an error that was met again only if the value is that error. -/
lemma eq_error_of_settle {v : Value} {st st' : Store} {message : String}
    (h : Run.settle v st = .fault (.carried message) st') : v = .error message := by
  cases v with
  | error m =>
    cases h
    rfl
  | _ => cases h

/-- What is missing is no error, so an error at a place that may be missing is there. -/
lemma eq_some_of_getD_error {o : Option Value} {message : String}
    (h : o.getD .null = .error message) : o = some (.error message) := by
  cases o with
  | none => cases h
  | some v => exact congrArg some h

/-- An error that is met again under a name was bound to it. -/
lemma lookup_of_nameValue {scope : ScopeId} {name message : String} {st st' : Store}
    (h : nameValue scope name st = .fault (.carried message) st') :
    st.lookup scope name = some (.error message) := by
  rw [nameValue, bind_eq_fault] at h
  rcases h with h | ⟨o, st₁, hget, h⟩
  · cases h
  · obtain ⟨rfl, rfl⟩ : st.lookup scope name = o ∧ st = st₁ := by
      cases hget
      exact ⟨rfl, rfl⟩
    cases hlookup : st.lookup scope name with
    | some v =>
      rw [hlookup] at h
      rw [eq_error_of_settle h]
    | none =>
      rw [hlookup] at h
      cases hbuiltin : Builtin.ofName? name <;> simp only [hbuiltin] at h <;> cases h

/-- An error that is met again by indexing was inside what is indexed. -/
lemma holds_of_indexInto {base position : Value} {message : String} {st st' : Store}
    (h : indexInto base position st = .fault (.carried message) st') :
    base.Holds (.error message) := by
  unfold indexInto at h
  split at h
  · rename_i items place
    have hitem := eq_error_of_settle h
    unfold itemAt at hitem
    split at hitem
    · cases hitem
    · exact .item (List.mem_of_getElem? (eq_some_of_getD_error hitem)) (.self _)
  · rename_i entries
    cases hkey : position.key? with
    | none =>
      rw [hkey] at h
      cases h
    | some key =>
      rw [hkey] at h
      have hlookup := eq_some_of_getD_error (eq_error_of_settle h)
      exact .value (Assoc.mem_of_lookup hlookup) (.self _)
  · cases h

/-! ## Sessions -/

namespace Session

/-- After a step no error is kept, and none is brought back. -/
structure Step.NoError (step : Step) : Prop where
  /-- Nothing that is kept in any scope is an error. -/
  store : ∀ w, step.after.store.Keeps w → w.isError = false
  /-- Nothing inside the answer is an error but perhaps the answer itself. -/
  answer : ∀ v, step.answer = .ok v → ∀ w, v.Holds w → w.isError = true → w = v
  /-- No name brings an error back. -/
  name : ∀ scope name message st,
    nameValue scope name step.after.store ≠ .fault (.carried message) st
  /-- No index into anything that is kept brings an error back. -/
  index : ∀ base, step.after.store.Keeps base → ∀ position message st st',
    indexInto base position st ≠ .fault (.carried message) st'

/-- All operands settle on values with no error inside, since wrapping by `return` does not
matter. -/
lemma Step.settles_noError (step : Step) : step.Settles Value.NoError :=
  fun _ _ _ _ _ _ _ _ _ _ _ hout => hout.noError

/-- **Errors are not kept**: in a session that takes one text after the other, no scope keeps an
error after any step, and neither a name nor an index brings one back. This holds of all scopes that
have been made, whether they can still be reached or not.

**Proof sketch.** To have no error inside is hereditary, and a value on its way out has it if its
payload has it. So all operands settle on such values, and all that is computed and bound has none
inside. -/
theorem Trace.keeps_noError {steps : List Step} (h : Trace new steps) :
    ∀ step ∈ steps, step.NoError := by
  intro step hmem
  have hall := h.hasAll Value.hereditary_noError (fun step _ => step.settles_noError) step hmem
  have hkept (w : Value) (hw : step.after.store.Keeps w) : w.isError = false := by
    obtain ⟨i, s, hs, p, hp, hw⟩ := hw
    exact hall.store i s hs p hp w hw
  refine ⟨hkept, fun v hv w hw herror => ?_, fun scope name message st hname => ?_,
    fun base hbase position message st st' hindex => ?_⟩
  · rcases hall.answer v hv with hnone | hanswer
    · rw [hnone w hw] at herror
      cases herror
    · cases hw with
      | self => rfl
      | _ => cases hanswer
  · have hlookup := hall.store.lookup (lookup_of_nameValue hname)
    exact Bool.noConfusion (hlookup _ (.self _))
  · -- What an index brings back is inside of what is kept, so it is kept as well.
    obtain ⟨i, s, hs, p, hp, hbase⟩ := hbase
    have herror := hkept _ ⟨i, s, hs, p, hp, hbase.trans (holds_of_indexInto hindex)⟩
    cases herror

/-- An array with a name in it that is not bound. -/
def arrayOfUnbound : Program :=
  [.letBind "x" (.array [.int 1, .ident "y"])]

/-- A text that ends with an error inside an array, and the same text once more. -/
theorem keeps_noError_unbound :
    let error : Value := .error "identifier not found: y"
    let step : Step := ⟨1, "let x = [1, y];", new, .ok error, new⟩
    Trace new [step, step] ∧ ∀ s ∈ [step, step], s.NoError := by
  intro error step
  have hparse : parse "let x = [1, y];" = .ok arrayOfUnbound :=
    parse_eq_ok_of_toOption (by decide +kernel)
  have hexpand : expand 1 1 arrayOfUnbound new.store = .ok arrayOfUnbound new.store := by
    with_unfolding_all rfl
  have heval : (arrayOfUnbound.eval 1 0 new.store).value? = some (error, new.store) := by
    with_unfolding_all rfl
  have hrun : step.Runs := by
    show new.run 1 "let x = [1, y];" = _
    rw [run, hparse]
    simp only [show new.macros = 1 from rfl, show new.globals = 0 from rfl, hexpand, heval,
      Option.map_some]
    rfl
  have htrace : Trace new [step, step] := .cons hrun (.cons hrun (.nil _))
  exact ⟨htrace, htrace.keeps_noError⟩

end Session

end QuoteLang
