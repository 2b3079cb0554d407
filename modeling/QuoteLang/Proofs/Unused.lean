import QuoteLang.Proofs.Blind
import QuoteLang.Proofs.Failures

set_option relaxedAutoImplicit false
set_option autoImplicit false

/-!
# Bindings that are not used

A name that occurs neither in a piece of syntax nor in anything that can be reached from a scope may
be bound there to whatever one likes. Nothing looks it up: not the functions that are called, which
have been made elsewhere, nor the quotations that are filled in at run time. So evaluation goes as
it would without the binding, step for step.

## Main definitions

* `Store.Unused` — a name occurs in nothing that can be reached from a scope.
* `SameButFor` — two evaluations end with the same value, and leave the same behind in a scope but
  for one name.

## Main results

* `Store.Unused.agrees` — a store agrees with the one in which the name is bound besides.
* `Tree.eval_bind_unused` — a binding that is not used changes nothing.
-/

namespace QuoteLang

/-- A name is **unused** behind a scope: it does not occur in the parameters or the body of any
function or macro, nor in any quotation, that is inside a value which can be reached from there. -/
def Store.Unused (st : Store) (scope : ScopeId) (name : String) : Prop :=
  ∀ i, st.Reaches scope i → ∀ s, st.scopes[i]? = some s →
    ∀ p ∈ s.bindings, p.2.Within (.without name)

/-- Two evaluations **end the same but for one name**: with the same value and the same text
written, and with the same bound in a scope and visible from it under every other name. -/
structure SameButFor (name : String) (scope : ScopeId) (p q : Value × Store) : Prop where
  /-- The value is the same. -/
  value_eq : q.1 = p.1
  /-- The same text has been written. -/
  output_eq : q.2.output = p.2.output
  /-- The scope binds the same under every other name. -/
  bound_eq (other : String) (hne : other ≠ name) : q.2.bound scope other = p.2.bound scope other
  /-- The same can be seen from it under all other names. -/
  visible_eq : (q.2.visible scope).filter (·.1 != name) = (p.2.visible scope).filter (·.1 != name)

section

variable {st : Store} {scope : ScopeId} {name : String}

/-- What is bound in a scope that is reached refers to scopes that are reached. -/
lemma Store.Reaches.of_value {i j : ScopeId} {s : Scope} {p : String × Value}
    (h : st.Reaches scope i) (hs : st.scopes[i]? = some s) (hp : p ∈ s.bindings)
    (hj : p.2.RefersTo j) : st.Reaches scope j :=
  h.tail ⟨s, hs, .inr ⟨p, hp, hj⟩⟩

/-- The outer scope of a scope that is reached is reached. -/
lemma Store.Reaches.of_outer {i o : ScopeId} {s : Scope} (h : st.Reaches scope i)
    (hs : st.scopes[i]? = some s) (ho : s.outer = some o) : st.Reaches scope o :=
  h.tail ⟨s, hs, .inl ho⟩

/-- **A store agrees with the one in which an unused name is bound besides**, in all other names.
The scopes that can be met are those that are reached, and those that are made later. -/
theorem Store.Unused.agrees (h : st.Unused scope name) (v : Value) :
    st.Agrees (.without name) (fun i => st.Reaches scope i ∨ st.scopes.size ≤ i)
      (st.bind scope name v) where
  size_eq := by simp [Store.bind]
  closures_eq := rfl
  output_eq := rfl
  later := .inr
  scopes {i} hi := by
    simp only [Store.bind, Array.getElem?_modify]
    cases hs : st.scopes[i]? with
    | none => split <;> exact .none
    | some s =>
      have hlt := (Array.getElem?_eq_some_iff.mp hs).1
      have hreach := hi.resolve_right (Nat.not_le_of_lt hlt)
      have hclean (p : String × Value) (hp : p ∈ s.bindings) :
          p.2.Clean (.without name) (fun i => st.Reaches scope i ∨ st.scopes.size ≤ i) :=
        (h i hreach s hs p hp).clean fun j hj => .inl (hreach.of_value hs hp hj)
      have houter {other : Store} : OuterAgrees
          (fun i => st.Reaches scope i ∨ st.scopes.size ≤ i) other s.outer s.outer := by
        cases ho : s.outer with
        | none => exact .none
        | some o => exact .same (.inl (hreach.of_outer hs ho))
      split
      · refine .some ⟨?_, fun p hp _ => hclean p hp, houter⟩
        have hnot : (Vocabulary.without name).names name = false := bne_self_eq_false name
        rw [Assoc.filter_put (p := (Vocabulary.without name).names), hnot]
        rfl
      · exact .some ⟨rfl, fun p hp _ => hclean p hp, houter⟩

/-- **Bindings that are not used do not interfere.** Let a name occur neither in a part of a program
nor in anything that can be reached from a scope. Then the evaluation there goes the same way,
whether or not the name is bound besides, and to whatever value: at every depth it is too deep in
both cases, or ends in both with the same value and the same text, and with the same bound under all
other names.

**Proof sketch.** Evaluation is blind to the name. The two stores agree in all other names, and so
do the stores in the end. -/
theorem Tree.eval_bind_unused {t : Tree} (ht : t.within (.without name))
    (hst : st.Unused scope name) (v : Value) (depth : Nat) :
    Option.Rel (SameButFor name scope) (t.eval depth scope st).value?
      (t.eval depth scope (st.bind scope name v)).value? := by
  have hscope : st.Reaches scope scope ∨ st.scopes.size ≤ scope := .inl .refl
  have hends := (Tree.eval_blind depth ht hscope _ _ (hst.agrees v)).value?
  generalize (t.eval depth scope st).value? = p at hends ⊢
  generalize (t.eval depth scope (st.bind scope name v)).value? = q at hends ⊢
  cases hends with
  | none => exact .none
  | some h =>
    obtain ⟨hvalue, hagrees⟩ := h
    exact .some ⟨hvalue, hagrees.output_eq, fun other hne =>
      hagrees.bound hscope (bne_iff_ne.mpr hne), hagrees.visible hscope⟩

end

/-- A store with one scope, in which `k` is bound to 5, and `f` to a function that adds `k` to its
argument. -/
def addingStore : Store where
  scopes := #[⟨[("k", .int 5), ("f", .function
    ⟨0, ["a"], [.expr (.binary .add (.ident "a") (.ident "k"))], 0⟩)], none⟩]
  closures := 1
  output := ""

/-- To call the function it does not matter what `n` is bound to. -/
theorem Tree.eval_bind_unused_call :
    let call : Tree := .expr (.call (.ident "f") [.ident "k"])
    call.within (.without "n") ∧ addingStore.Unused 0 "n" ∧
      (call.eval 1 0 addingStore).value?.map Prod.fst = some (.int 10) ∧
      Option.Rel (SameButFor "n" 0) (call.eval 1 0 addingStore).value?
        (call.eval 1 0 (addingStore.bind 0 "n" (.builtin .len))).value? := by
  intro call
  have hcall : call.within (.without "n") := by decide +kernel
  have hunused : addingStore.Unused 0 "n" := by
    intro i _ s hs p hp
    obtain ⟨hlt, rfl⟩ := Array.getElem?_eq_some_iff.mp hs
    obtain rfl : i = 0 := Nat.lt_one_iff.mp hlt
    rcases List.mem_cons.mp hp with rfl | hp
    · exact Value.clean_int 5
    · obtain rfl := List.mem_singleton.mp hp
      exact Value.clean_function_iff.mpr ⟨rfl, by decide +kernel, trivial⟩
  exact ⟨hcall, hunused, by with_unfolding_all rfl, eval_bind_unused hcall hunused _ 1⟩

end QuoteLang
