import QuoteLang.Proofs.Blind
import QuoteLang.Proofs.Parallel

set_option relaxedAutoImplicit false
set_option autoImplicit false

/-!
# Programs as functions

A program does in a new scope what a function without parameters does that has the program as its
body. The call makes a scope of its own inside the one where the function is written. That is one
more scope, and the functions and scopes that are made have other numbers; but neither can be seen,
since the scope further out binds nothing.

## Main definitions

* `Program.call` — the call of a function without parameters whose body is a program.
* `LooksSame` — two evaluations end with values that have the same type and are shown alike, after
  the same text.

## Main results

* `Program.eval_looksSame` — a program goes alike in any two scopes that are blank.
* `Store.agrees_enclose` — a scope inside a blank one agrees with a scope that is inside none.
* `Program.eval_call` — a program and the call go alike.
-/

namespace QuoteLang

open Run

/-- The call of a function without parameters whose body is a program. -/
def Program.call (program : Program) : Expr :=
  .call (.fnLit [] program) []

/-- Two evaluations, started in two stores, end so that it **looks the same**: the values have the
same type and are shown alike, and the same text has been written. -/
structure LooksSame (st other : Store) (p q : Value × Store) : Prop where
  /-- The values have the same type. -/
  type_eq : q.1.type = p.1.type
  /-- They are shown alike. -/
  render_eq : q.1.render = p.1.render
  /-- The same text has been written. -/
  wrote : WroteSame st p.2 other q.2

section

variable {st other : Store} {i j : ScopeId}

/-! ## Blank scopes -/

/-- A program that ends in a blank scope ends in any other, and it looks the same. -/
lemma Program.exists_looksSame (hi : st.scopes[i]? = some ⟨[], none⟩)
    (hj : other.scopes[j]? = some ⟨[], none⟩) (program : Program) {depth : Nat} {p : Value × Store}
    (h : (program.eval depth i st).value? = some p) :
    ∃ q, (program.eval depth j other).value? = some q ∧ LooksSame st other p q := by
  obtain ⟨v, st₁⟩ := p
  have hij : (Twin.ofBlank hi hj).scopes i j := ⟨rfl, rfl⟩
  obtain ⟨T', w, hT', rfl, hw, hvw⟩ :=
    (Program.eval_follows (Nat.le_refl depth) hij program).of_value? h
  exact ⟨(w, T'.right), hw, hvw.type_eq.symm, hvw.render_eq.symm, hT'.output⟩

/-- **A program goes alike in any two scopes that are blank**: it is too deep in both, or it ends in
both, and it looks the same. -/
theorem Program.eval_looksSame (hi : st.scopes[i]? = some ⟨[], none⟩)
    (hj : other.scopes[j]? = some ⟨[], none⟩) (program : Program) (depth : Nat) :
    Option.Rel (LooksSame st other) (program.eval depth i st).value?
      (program.eval depth j other).value? := by
  cases hp : (program.eval depth i st).value? with
  | none =>
    cases hq : (program.eval depth j other).value? with
    | none => exact .none
    | some q =>
      obtain ⟨p, hp', -⟩ := program.exists_looksSame hj hi hq
      cases hp.symm.trans hp'
  | some p =>
    obtain ⟨q, hq, hpq⟩ := program.exists_looksSame hi hj hp
    rw [hq]
    exact .some hpq

/-! ## The scope of a call -/

/-- **A scope inside a blank one agrees** in everything with a scope that is inside none. -/
theorem Store.agrees_enclose (h : st.scopes[i]? = some ⟨[], none⟩) (V : Vocabulary) :
    st.newGlobal.2.Agrees V (fun k => st.scopes.size ≤ k) (st.enclose i).2 where
  size_eq := by simp [Store.enclose, Store.newGlobal, Store.newScope]
  closures_eq := rfl
  output_eq := rfl
  later hle := by
    simp only [Store.newGlobal, Store.newScope, Array.size_push] at hle
    exact Nat.le_of_succ_le hle
  scopes {k} hk := by
    have hlt := (Array.getElem?_eq_some_iff.mp h).1
    have hblank : (st.enclose i).2.scopes[i]? = some ⟨[], none⟩ := by
      simp only [Store.enclose, Store.newScope, Array.getElem?_push, Nat.ne_of_lt hlt, if_false, h]
    simp only [Store.newGlobal, Store.enclose, Store.newScope, Array.getElem?_push]
    split
    · exact .some ⟨rfl, List.forall_mem_nil _, .blank (Nat.not_le_of_lt hlt) hblank⟩
    · rw [Array.getElem?_eq_none hk]
      exact .none

/-- The call of a function without parameters takes one unit of the depth, and evaluates its body in
a new scope. -/
lemma Program.eval_call_succ (program : Program) (depth : Nat) :
    program.call.eval (depth + 1) i st =
        bodyValue (evalBlock (depth + 1)) ⟨st.closures, [], program, i⟩ []
          (st.newClosure [] program i).2 ∧
      program.call.eval (depth + 1) i st =
        program.eval depth st.scopes.size ((st.newClosure [] program i).2.enclose i).2 := by
  rw [call, Expr.eval, Expr.evalWith, Expr.evalWith, evalExprs]
  exact ⟨rfl, rfl⟩

/-- Without depth the call is too deep. -/
lemma Program.eval_call_zero (program : Program) :
    (program.call.eval 0 i st).value? = none := by
  rw [call, Expr.eval, Expr.evalWith, Expr.evalWith, evalExprs]
  rfl

/-- A call in a blank scope leaves it blank. -/
lemma Program.blank_eval_call (hi : st.scopes[i]? = some ⟨[], none⟩) (program : Program)
    {depth : Nat} {q : Value × Store} (h : (program.call.eval (depth + 1) i st).value? = some q) :
    q.2.scopes[i]? = some ⟨[], none⟩ := by
  have hlt := (Array.getElem?_eq_some_iff.mp hi).1
  rw [(program.eval_call_succ depth).1] at h
  have hext := ((bodyValue_extends (depth + 1) ⟨st.closures, [], program, i⟩ [] _).of_value? h).elim
    id And.right
  rw [hext.scopes_eq i hlt]
  exact hi

/-- A program goes in a blank scope as the call does in another one. -/
lemma Program.eval_call_looksSame (hi : st.scopes[i]? = some ⟨[], none⟩)
    (hj : other.scopes[j]? = some ⟨[], none⟩) (program : Program) (depth : Nat) :
    Option.Rel (LooksSame st other) (program.eval depth i st).value?
      (program.call.eval (depth + 1) j other).value? := by
  let made : Store := (other.newClosure [] program j).2
  have hnew : made.newGlobal.2.scopes[other.scopes.size]? = some ⟨[], none⟩ :=
    Array.getElem?_push_size
  have hmade : made.scopes[j]? = some ⟨[], none⟩ := hj
  have hagrees : made.newGlobal.2.Agrees .all (fun k => other.scopes.size ≤ k) (made.enclose j).2 :=
    Store.agrees_enclose hmade .all
  have hwithin : stmtsWithin .all program := stmtsWithin_iff.mpr fun s _ => within_all.2 s
  -- The program goes as in a scope that is inside no other, and that scope agrees with the new one.
  have halike := program.eval_looksSame hi hnew depth
  have hblind := (program.eval_blind depth hwithin (Nat.le_refl _) _ _ hagrees).value?
  rw [(program.eval_call_succ depth).2]
  generalize (program.eval depth i st).value? = p at halike ⊢
  generalize (program.eval depth _ made.newGlobal.2).value? = q at halike hblind
  generalize (program.eval depth _ (made.enclose j).2).value? = r at hblind ⊢
  cases halike with
  | none =>
    cases hblind with
    | none => exact .none
  | some hpq =>
    cases hblind with
    | some hqr =>
      obtain ⟨text, hleft, hright⟩ := hpq.wrote
      refine .some ⟨?_, ?_, text, hleft, ?_⟩
      · rw [hqr.1, hpq.type_eq]
      · rw [hqr.1, hpq.render_eq]
      · rw [hqr.2.output_eq, hright]
        rfl

end

/-- **A program is a call of a function without parameters.** Let a program be evaluated in a new
scope, and the call in another new scope, in whatever stores. Then either both are too deep at every
depth, or both end, and it looks the same: the values have the same type and are shown alike, and
the same text has been written. The call leaves its scope empty.

**Proof sketch.** The call takes one unit of the depth, and evaluates the program in a new scope
inside an empty one. That goes as in a new scope inside none. -/
theorem Program.eval_call (program : Program) (st other : Store) :
    let left (depth : Nat) := (program.eval depth st.newGlobal.1 st.newGlobal.2).value?
    let right (depth : Nat) :=
      (program.call.eval depth other.newGlobal.1 other.newGlobal.2).value?
    ((∀ depth, left depth = none) ↔ ∀ depth, right depth = none) ∧
      (∀ depth, Option.Rel (LooksSame st.newGlobal.2 other.newGlobal.2) (left depth)
        (right (depth + 1))) ∧
      ∀ depth v st', right depth = some (v, st') →
        st'.scopes[other.newGlobal.1]? = some ⟨[], none⟩ := by
  intro left right
  have hblank (st : Store) : st.newGlobal.2.scopes[st.newGlobal.1]? = some ⟨[], none⟩ :=
    Array.getElem?_push_size
  have hrel (depth : Nat) : Option.Rel (LooksSame st.newGlobal.2 other.newGlobal.2) (left depth)
      (right (depth + 1)) := program.eval_call_looksSame (hblank st) (hblank other) depth
  have hnone (depth : Nat) : left depth = none ↔ right (depth + 1) = none := by
    have h := hrel depth
    generalize left depth = p at h ⊢
    generalize right (depth + 1) = q at h ⊢
    cases h with
    | none => exact iff_of_true rfl rfl
    | some _ => exact iff_of_false nofun nofun
  refine ⟨⟨fun hleft depth => ?_, fun hright depth => ?_⟩, hrel, fun depth v st' h => ?_⟩
  · cases depth with
    | zero => exact program.eval_call_zero
    | succ depth => exact (hnone depth).mp (hleft depth)
  · exact (hnone depth).mpr (hright (depth + 1))
  · cases depth with
    | zero => cases program.eval_call_zero.symm.trans h
    | succ depth => exact program.blank_eval_call (hblank other) h

end QuoteLang
