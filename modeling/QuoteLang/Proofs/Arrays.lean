import QuoteLang.Proofs.Equality

set_option relaxedAutoImplicit false
set_option autoImplicit false

/-!
# Arrays through their functions

An array can be taken apart by `first` and `rest`, put together by `push`, measured by `len`, and
read by `last` and by indexing. All of these are about the same list of items: where one of them
ends the array, so do the others.

## Main definitions

* `Run.Answers` — a run ends with a value wherever it is started, and changes nothing.
* `Builtin.Gives`, `Value.HasAt` — the value of a call, and of an index.
* `Builtin.RestAfter`, `Builtin.Firsts`, `Builtin.Pushes` — an array is shortened again and again,
  taken apart, and put together.
* `Value.ReadsAsList` — the functions of an array agree with one another and with indexing.

## Main results

* `Builtin.restAfter_array_iff` — shortening an array drops items at its start.
* `Value.array_readsAsList` — the functions of every array agree.
-/

namespace QuoteLang

open Run

/-! ## Calls and indices that have a value -/

/-- A run **answers** a value wherever it is started: it ends with the value, or with the fault that
the value stands for if it is an error, and leaves the store as it is. -/
def Run.Answers (x : Run Fault Value) (v : Value) : Prop :=
  ∀ st, (x st).value? = some (v, st)

/-- A run answers one value at most. -/
lemma Run.Answers.eq {x : Run Fault Value} {v w : Value} (hv : x.Answers v) (hw : x.Answers w) :
    v = w := by
  have h := (hv .empty).symm.trans (hw .empty)
  simpa using h

/-- Settling on a value answers it. -/
lemma Run.answers_settle (v : Value) : (Run.settle v).Answers v := by
  intro st
  cases v <;> rfl

/-- A call of a built-in function **gives** a value: so it ends at every depth and in every store,
and nothing that is bound anywhere is changed. -/
def Builtin.Gives (b : Builtin) (args : List Value) (v : Value) : Prop :=
  ∀ depth, ((Value.builtin b).apply depth args).Answers v

/-- A value **has** another one at a place, if it is indexed there. -/
def Value.HasAt (a : Value) (place : Int64) (v : Value) : Prop :=
  (indexInto a (.int place)).Answers v

namespace Builtin

variable {b : Builtin} {args items : List Value} {v w : Value}

/-- A call gives one value at most. -/
lemma Gives.eq (hv : b.Gives args v) (hw : b.Gives args w) : v = w :=
  (hv 0).eq (hw 0)

/-- A call gives what the function computes without looking at the store. -/
lemma gives_of_call (h : b.call args = Pure.pure v) : b.Gives args v := by
  intro depth
  rw [Value.apply, applyWith, h, pure_bind]
  exact answers_settle v

/-! ## One call -/

/-- The number of the items. -/
lemma gives_len (items : List Value) :
    len.Gives [.array items] (.int (Int64.ofNat items.length)) :=
  gives_of_call rfl

/-- The first item. -/
lemma gives_first (items : List Value) : first.Gives [.array items] (items.head?.getD .null) :=
  gives_of_call rfl

/-- The last item. -/
lemma gives_last (items : List Value) :
    last.Gives [.array items] (items.getLast?.getD .null) :=
  gives_of_call rfl

/-- All items but the first. -/
lemma gives_rest (items : List Value) : rest.Gives [.array items] (.array (items.drop 1)) :=
  gives_of_call rfl

/-- The items with one more at the end. -/
lemma gives_push (items : List Value) (v : Value) :
    push.Gives [.array items, v] (.array (items ++ [v])) :=
  gives_of_call rfl

/-! ## Several calls -/

/-- What is left of an array after so many times the rest of it has been taken. -/
def RestAfter : Nat → Value → Value → Prop
  | 0, a, r => r = a
  | n + 1, a, r => ∃ shorter, rest.Gives [a] shorter ∧ RestAfter n shorter r

/-- The values are the first items of an array, of its rest, of the rest of that, and so on. -/
def Firsts : List Value → Value → Prop
  | [], _ => True
  | x :: xs, a => first.Gives [a] x ∧ ∃ shorter, rest.Gives [a] shorter ∧ Firsts xs shorter

/-- An array becomes another when values are pushed onto it one after the other. -/
def Pushes : List Value → Value → Value → Prop
  | [], a, r => r = a
  | x :: xs, a, r => ∃ longer, push.Gives [a, x] longer ∧ Pushes xs longer r

/-- **Shortening an array** drops as many items at its start. -/
theorem restAfter_array_iff {n : Nat} {r : Value} :
    RestAfter n (.array items) r ↔ r = .array (items.drop n) := by
  induction n generalizing items with
  | zero => simp [RestAfter]
  | succ n ih =>
    constructor
    · rintro ⟨shorter, hrest, hr⟩
      rw [hrest.eq (gives_rest items), ih, List.drop_drop, Nat.add_comm] at hr
      exact hr
    · rintro rfl
      exact ⟨_, gives_rest items, by rw [ih, List.drop_drop, Nat.add_comm]⟩

/-- The first item after so many times the rest is the one at that place. -/
lemma gives_first_drop (items : List Value) (n : Nat) :
    first.Gives [.array (items.drop n)] (items[n]?.getD .null) := by
  have h := gives_first (items.drop n)
  rwa [List.head?_drop] at h

/-- **Taking an array apart** gives its items. -/
theorem firsts_array (items : List Value) : Firsts items (.array items) := by
  induction items with
  | nil => trivial
  | cons x xs ih => exact ⟨gives_first (x :: xs), _, gives_rest (x :: xs), ih⟩

/-- **Putting an array together** puts the values at its end. -/
theorem pushes_array (xs items : List Value) :
    Pushes xs (.array items) (.array (items ++ xs)) := by
  induction xs generalizing items with
  | nil => simp [Pushes]
  | cons x xs ih =>
    refine ⟨_, gives_push items x, ?_⟩
    simpa using ih (items ++ [x])

end Builtin

/-! ## Indexing -/

namespace Value

open Builtin

variable {items : List Value} {i : Int64}

/-- A place that is not negative has the item that stands there. -/
lemma hasAt_of_nonneg (hi : 0 ≤ i) :
    (array items).HasAt i (items[i.toInt.toNat]?.getD .null) := by
  have hitem : itemAt items i = items[i.toInt.toNat]?.getD .null := by
    rw [itemAt, if_neg (Int64.not_lt.mpr hi)]
  rw [← hitem]
  exact answers_settle _

/-- A negative place has nothing. -/
lemma hasAt_of_neg (hi : i < 0) : (array items).HasAt i .null := by
  have hitem : itemAt items i = .null := by
    rw [itemAt, if_pos hi]
  rw [← hitem]
  exact answers_settle _

/-- A place that is counted from the start is not negative. -/
lemma nonneg_of_toInt_eq {n : Nat} (h : i.toInt = n) : 0 ≤ i := by
  rw [Int64.le_iff_toInt_le, h]
  exact Int.natCast_nonneg n

/-- The place of the last item has that item, and so has the place before an empty array. -/
lemma hasAt_last (h : i.toInt = (items.length : Int) - 1) :
    (array items).HasAt i (items.getLast?.getD .null) := by
  cases items with
  | nil =>
    refine hasAt_of_neg ?_
    rw [Int64.lt_iff_toInt_lt, h]
    decide
  | cons x xs =>
    have htoInt : i.toInt = xs.length := by simpa using h
    have hlast : (array (x :: xs)).HasAt i _ := hasAt_of_nonneg (nonneg_of_toInt_eq htoInt)
    rw [htoInt, Int.toNat_natCast] at hlast
    rwa [List.getLast?_eq_getElem?, List.length_cons, Nat.add_sub_cancel]

/-- **The functions of an array agree** with one another and with indexing. -/
structure ReadsAsList (items : List Value) : Prop where
  /-- What is at a place is the first item after as many times the rest. It is `null` if there are
  no items left then. -/
  index (i : Int64) : 0 ≤ i → ∃ r v, RestAfter i.toInt.toNat (array items) r ∧ first.Gives [r] v ∧
    (array items).HasAt i v ∧ (items.length ≤ i.toInt.toNat → v = .null)
  /-- At a negative place there is nothing. -/
  index_neg (i : Int64) : i < 0 → (array items).HasAt i .null
  /-- Each time the rest is one item shorter, until there are none left. -/
  length (n : Nat) : ∃ r, RestAfter n (array items) r ∧
    len.Gives [r] (.int (Int64.ofNat (items.length - n)))
  /-- The last item is the one before the place that is the length. -/
  last : ∃ v, Builtin.last.Gives [array items] v ∧
    ∀ i : Int64, i.toInt = (items.length : Int) - 1 → (array items).HasAt i v
  /-- An array that is taken apart and put together again is equal to what it was. -/
  rebuild : ∃ xs r, xs.length = items.length ∧ Firsts xs (array items) ∧
    Pushes xs (array []) r ∧ r = array items ∧ ((array items).DistinctKeys → r.same (array items))
  /-- Pushing a value makes another array, which is longer by one. It has the value at its end, and
  agrees with the array at all places before. -/
  push (v : Value) : ∃ r, Builtin.push.Gives [array items, v] r ∧
    len.Gives [r] (.int (Int64.ofNat (items.length + 1))) ∧
    (∀ i : Int64, 0 ≤ i → i.toInt < items.length →
      ∃ w, r.HasAt i w ∧ (array items).HasAt i w) ∧
    ∀ i : Int64, i.toInt = items.length → r.HasAt i v

/-- **Every array reads as a list.** -/
theorem array_readsAsList (items : List Value) : ReadsAsList items where
  index i hi := by
    refine ⟨_, _, restAfter_array_iff.mpr rfl, gives_first_drop items _, hasAt_of_nonneg hi,
      fun hle => ?_⟩
    rw [List.getElem?_eq_none hle, Option.getD_none]
  index_neg i hi := hasAt_of_neg hi
  length n := by
    have hlen := gives_len (items.drop n)
    rw [List.length_drop] at hlen
    exact ⟨_, restAfter_array_iff.mpr rfl, hlen⟩
  last := ⟨_, gives_last items, fun i hi => hasAt_last hi⟩
  rebuild := ⟨items, array items, rfl, firsts_array items, pushes_array items [], rfl, same_refl⟩
  push v := by
    have hlen := gives_len (items ++ [v])
    rw [List.length_append] at hlen
    refine ⟨_, gives_push items v, hlen, fun i hi hlt => ?_, fun i hi => ?_⟩
    · refine ⟨_, hasAt_of_nonneg hi, ?_⟩
      have hpos : 0 ≤ i.toInt := Int64.le_iff_toInt_le.mp hi
      have hlt' : i.toInt.toNat < items.length := by omega
      rw [List.getElem?_append_left hlt']
      exact hasAt_of_nonneg hi
    · have hlast : (array (items ++ [v])).HasAt i _ := hasAt_of_nonneg (nonneg_of_toInt_eq hi)
      simpa [hi] using hlast

end Value

end QuoteLang
