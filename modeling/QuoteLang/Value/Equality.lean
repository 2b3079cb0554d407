import QuoteLang.Value

set_option relaxedAutoImplicit false
set_option autoImplicit false

/-!
# Equality of values

When two values count as equal. Functions and macros are equal only to themselves, and hashes are
equal if they hold equal values under the same keys, in whatever order; all else is equal if its
parts are.

## Main definitions

* `Value.same` — compares two values.

## Main results

* `Value.same_type` — equal values have the same type.
* `sameValues_of_zip`, `containsAll_of_lookup` — when lists of values and entries of hashes are
  equal.
-/

namespace QuoteLang

mutual

/-- Compares two values. -/
def Value.same : Value → Value → Bool
  | .int a, .int b => a == b
  | .bool a, .bool b => a == b
  | .str a, .str b => a == b
  | .array a, .array b => sameValues a b
  | .hash a, .hash b => a.length == b.length && containsAll b a
  | .function a, .function b => a.id == b.id
  | .builtin a, .builtin b => a == b
  | .macroFn a, .macroFn b => a.id == b.id
  | .returned a, .returned b => a.same b
  | .error a, .error b => a == b
  | .quote a, .quote b => a == b
  | .null, .null => true
  | _, _ => false

/-- Compares two lists of values. -/
def sameValues : List Value → List Value → Bool
  | [], [] => true
  | a :: as, b :: bs => a.same b && sameValues as bs
  | _, _ => false

/-- Whether every key of a list of entries has an equal value among some other entries. -/
def containsAll (others : List (Key × Value)) : List (Key × Value) → Bool
  | [] => true
  | (key, value) :: rest =>
    (match others.lookup key with
      | some other => value.same other
      | none => false) && containsAll others rest

end

/-- Equal values have the same type. -/
theorem Value.same_type {a b : Value} (h : a.same b = true) : a.type = b.type := by
  cases a <;> cases b <;> simp_all [Value.same, Value.type]

/-- Lists of values are equal if they are as long and their values are equal, one by one. -/
theorem sameValues_of_zip {vs ws : List Value} (hlen : vs.length = ws.length)
    (h : ∀ p ∈ vs.zip ws, p.1.same p.2 = true) : sameValues vs ws = true := by
  induction vs generalizing ws with
  | nil =>
    obtain rfl := List.eq_nil_of_length_eq_zero hlen.symm
    rw [sameValues]
  | cons v vs ih =>
    cases ws with
    | nil => cases hlen
    | cons w ws =>
      rw [List.zip_cons_cons, List.forall_mem_cons] at h
      rw [sameValues, h.1, ih (Nat.succ.inj hlen) h.2, Bool.and_self]

/-- All keys have equal values among some other entries, if for each of them an equal value is
found. -/
theorem containsAll_of_lookup {others entries : List (Key × Value)}
    (h : ∀ e ∈ entries, ∃ v, others.lookup e.1 = some v ∧ e.2.same v = true) :
    containsAll others entries = true := by
  induction entries with
  | nil => rw [containsAll]
  | cons e rest ih =>
    rw [List.forall_mem_cons] at h
    obtain ⟨v, hv, hsame⟩ := h.1
    rw [containsAll, hv, ih h.2]
    simpa using hsame

end QuoteLang
