import Mathlib.Data.List.Induction
import QuoteLang.Proofs.HashKey
import QuoteLang.Proofs.ShortCircuit

set_option relaxedAutoImplicit false
set_option autoImplicit false

/-!
# Hash literals

In a hash literal a key may come more than once. It keeps the place where it came first, and has the
value it had last. This does not depend on how the entries are kept: a table of hash keys holds the
same entries in the same order, as long as no two strings share a digest.

## Main definitions

* `Assoc.putAll` — puts in several values, one after the other.
* `LastValue` — the value that a key has last in a list.
* `EntriesEvaluate` — the keys and values that the entries of a hash literal evaluate to, in order.

## Main results

* `Assoc.keys_putAll` — the keys are those put in, in the order in which they came first.
* `Assoc.lookup_putAll_eq_some_iff`, `Assoc.lookup_putAll_eq_none` — what is found under a key is
  its last value.
* `tableOf_putAll` — a table of hash keys holds the same entries.
* `Expr.eval_hash_lastValue` — what a hash literal evaluates to, and what is found in it.
-/

namespace QuoteLang

/-! ## Putting in one after the other -/

/-- A key **has its last value** in a list: it comes with that value, and does not come again after
it. -/
def LastValue {κ ν : Type} (pairs : List (κ × ν)) (key : κ) (value : ν) : Prop :=
  ∃ before after, pairs = before ++ (key, value) :: after ∧ key ∉ after.map Prod.fst

namespace Assoc

variable {κ ν : Type} [DecidableEq κ]

/-- Puts in values under their keys, one after the other. -/
def putAll (entries pairs : List (κ × ν)) : List (κ × ν) :=
  pairs.foldl (fun acc p => put p.1 p.2 acc) entries

/-- A further value is put in last. -/
lemma putAll_concat (entries pairs : List (κ × ν)) (p : κ × ν) :
    putAll entries (pairs ++ [p]) = put p.1 p.2 (putAll entries pairs) := by
  simp [putAll]

/-- **The keys** that have been put in stand in the order in which they came first. -/
theorem keys_putAll (pairs : List (κ × ν)) :
    (putAll [] pairs).map Prod.fst = (pairs.map Prod.fst).eraseDups := by
  induction pairs using List.reverseRecOn with
  | nil => rfl
  | append_singleton pairs p ih =>
    rw [putAll_concat, keys_put, ih, List.map_append, List.eraseDups_append]
    by_cases hmem : p.1 ∈ pairs.map Prod.fst
    · simp [hmem, List.removeAll]
    · simp [hmem, List.removeAll, List.eraseDups_cons]

/-- No key comes twice where all have been put in. -/
lemma nodup_keys_putAll (pairs : List (κ × ν)) :
    ((putAll [] pairs).map Prod.fst).Nodup := by
  induction pairs using List.reverseRecOn with
  | nil => exact List.nodup_nil
  | append_singleton pairs p ih =>
    rw [putAll_concat]
    exact nodup_keys_put _ _ ih

/-- What is found under a key is what is found from the end of the list. -/
lemma lookup_putAll (pairs : List (κ × ν)) (key : κ) :
    (putAll [] pairs).lookup key = pairs.reverse.lookup key := by
  induction pairs using List.reverseRecOn with
  | nil => rfl
  | append_singleton pairs p ih =>
    rw [putAll_concat, List.reverse_append, List.reverse_singleton, List.singleton_append]
    by_cases h : key = p.1
    · rw [h, lookup_put_self, List.lookup_cons_self]
    · rw [lookup_put_of_ne h, ih, List.lookup_cons, beq_false_of_ne h]

/-- **What is found** under a key is its last value. -/
theorem lookup_putAll_eq_some_iff {pairs : List (κ × ν)} {key : κ} {value : ν} :
    (putAll [] pairs).lookup key = some value ↔ LastValue pairs key value := by
  rw [lookup_putAll, List.lookup_eq_some_iff]
  constructor
  · rintro ⟨after, before, heq, hne⟩
    refine ⟨before.reverse, after.reverse, by simpa using congrArg List.reverse heq, ?_⟩
    rw [List.map_reverse, List.mem_reverse]
    exact forall_bne_iff.mp hne
  · rintro ⟨before, after, rfl, hne⟩
    refine ⟨after.reverse, before.reverse, by simp, ?_⟩
    rw [forall_bne_iff, List.map_reverse, List.mem_reverse]
    exact hne

/-- Nothing is found under what is none of the keys. -/
theorem lookup_putAll_eq_none {pairs : List (κ × ν)} {key : κ} (h : key ∉ pairs.map Prod.fst) :
    (putAll [] pairs).lookup key = none := by
  rw [lookup_eq_none_iff, keys_putAll, List.mem_eraseDups]
  exact h

end Assoc

/-- **A table of hash keys** holds the same entries in the same order, whatever is put in under keys
that are apart. -/
theorem tableOf_putAll {digest : String → UInt64} {pairs : List (Key × Value)}
    (h : Key.Apart digest (pairs.map Prod.fst)) :
    tableOf digest (Assoc.putAll [] pairs) = Assoc.putAll [] (tableOf digest pairs) := by
  induction pairs using List.reverseRecOn with
  | nil => rfl
  | append_singleton pairs p ih =>
    have htable : tableOf digest (pairs ++ [p]) =
        tableOf digest pairs ++ [tableEntry digest p] := by simp [tableOf]
    -- The keys that are there already are among those that have been put in.
    have hapart : Key.Apart digest (p.1 :: (Assoc.putAll [] pairs).map Prod.fst) := by
      refine h.mono fun k hk => ?_
      rw [Assoc.keys_putAll, List.mem_cons, List.mem_eraseDups] at hk
      rw [List.map_append, List.mem_append, List.map_singleton, List.mem_singleton]
      exact hk.symm
    rw [Assoc.putAll_concat, tableOf_put hapart, ih (h.mono (by simp)), htable,
      Assoc.putAll_concat]
    rfl

/-! ## Evaluation -/

/-- Entries **evaluate** to keys with values: one after the other, and the key of each before its
value. -/
inductive EntriesEvaluate (depth : Nat) (scope : ScopeId) :
    List (Expr × Expr) → Store → List (Key × Value) → Store → Prop
  /-- There is nothing to evaluate. -/
  | nil (st : Store) : EntriesEvaluate depth scope [] st [] st
  /-- The first entry is evaluated, and then the rest. -/
  | cons {k e : Expr} {rest : List (Expr × Expr)} {st st₁ st₂ st₃ : Store} {key : Key} {v : Value}
      {pairs : List (Key × Value)} (hk : k.eval depth scope st = .ok key.toValue st₁)
      (he : e.eval depth scope st₁ = .ok v st₂)
      (hrest : EntriesEvaluate depth scope rest st₂ pairs st₃) :
      EntriesEvaluate depth scope ((k, e) :: rest) st ((key, v) :: pairs) st₃

section

variable {depth : Nat} {scope : ScopeId} {exprs : List (Expr × Expr)} {pairs : List (Key × Value)}
  {st st' : Store}

/-- What entries evaluate to is put in, one after the other. -/
lemma EntriesEvaluate.evalEntries (h : EntriesEvaluate depth scope exprs st pairs st')
    (before : List (Key × Value)) :
    evalEntries (evalBlock depth) scope before exprs st =
      .ok (Assoc.putAll before pairs) st' := by
  induction h generalizing before with
  | nil => rw [QuoteLang.evalEntries]; rfl
  | @cons k e rest st st₁ st₂ st₃ key v pairs hk he hrest ih =>
    rw [QuoteLang.evalEntries]
    refine (Run.bind_of_ok hk).trans ?_
    simp only [Value.key?_toValue]
    exact (Run.bind_of_ok he).trans (ih _)

/-- None of the values is an error. -/
lemma EntriesEvaluate.settled (h : EntriesEvaluate depth scope exprs st pairs st') :
    ∀ p ∈ pairs, p.2.Settled := by
  induction h with
  | nil => simp
  | cons hk he hrest ih =>
    rw [List.forall_mem_cons]
    exact ⟨gives_settled.1 _ _ _ _ _ he, ih⟩

/-- Indexing into a hash finds what is under the key, if that is no error. -/
lemma indexInto_hash {entries : List (Key × Value)} {key : Key} {v : Value}
    (h : (entries.lookup key).getD .null = v) (hv : v.Settled) (st : Store) :
    indexInto (.hash entries) key.toValue st = .ok v st := by
  rw [indexInto]
  simp only [Value.key?_toValue, h, hv.settle]
  rfl

/-- **Hash literals are lists of keys with their last values.** Suppose that the entries of a
literal evaluate to keys with values, and that the strings among the keys have different digests.
Then the literal evaluates to a hash of which the following is true.

* A table of hash keys into which each value is put under the hash key of its key holds the entries
  of this hash, and each of them keeps a key with the hash key that it is kept under.
* The keys stand in the order in which they came first, and each has its last value.
* Under a key its last value is found, by an index as well as by its hash key.
* Under what is none of the keys, and no string with the digest of one of them, nothing is found, by
  an index as well as by its hash key.

And keys that are not strings never share a hash key, whatever their types. -/
theorem Expr.eval_hash_lastValue {digest : String → UInt64}
    (h : EntriesEvaluate depth scope exprs st pairs st')
    (hapart : Key.Apart digest (pairs.map Prod.fst)) :
    ∃ entries, (Expr.hash exprs).eval depth scope st = .ok (.hash entries) st' ∧
      tableOf digest entries = Assoc.putAll [] (tableOf digest pairs) ∧
      (∀ t ∈ tableOf digest entries, t.2.1.hashKey? digest = some t.1) ∧
      entries.map Prod.fst = (pairs.map Prod.fst).eraseDups ∧
      (∀ e ∈ entries, LastValue pairs e.1 e.2) ∧
      (∀ key v, LastValue pairs key v →
        (∀ st₁, indexInto (.hash entries) key.toValue st₁ = .ok v st₁) ∧
          (tableOf digest entries).lookup (key.hashKey digest) = some (key.toValue, v)) ∧
      (∀ key, key ∉ pairs.map Prod.fst → Key.Apart digest (key :: pairs.map Prod.fst) →
        (∀ st₁, indexInto (.hash entries) key.toValue st₁ = .ok .null st₁) ∧
          (tableOf digest entries).lookup (key.hashKey digest) = none) ∧
      ∀ a b : Key, a.hashKey digest = b.hashKey digest ↔
        a = b ∨ ∃ s t, a = .str s ∧ b = .str t ∧ digest s = digest t := by
  have hnodup := Assoc.nodup_keys_putAll pairs
  have hkeys := Assoc.keys_putAll pairs
  refine ⟨Assoc.putAll [] pairs, ?_, tableOf_putAll hapart, fun t => hashKey?_of_mem_tableOf, hkeys,
    fun e he => ?_, fun key v hlast => ?_, fun key hkey hapart => ?_, fun a b => Key.hashKey_eq_iff⟩
  · rw [Expr.eval, Expr.evalWith]
    exact Run.bind_of_ok (h.evalEntries [])
  · exact Assoc.lookup_putAll_eq_some_iff.mp (Assoc.lookup_of_mem hnodup he)
  · have hfound := Assoc.lookup_putAll_eq_some_iff.mpr hlast
    obtain ⟨before, after, rfl, -⟩ := hlast
    refine ⟨indexInto_hash (by rw [hfound]; rfl) (h.settled (key, v) (by simp)), ?_⟩
    rw [lookup_tableOf, hfound, Option.map_some]
    refine hapart.mono fun k hk => ?_
    rw [hkeys, List.mem_cons, List.mem_eraseDups] at hk
    rcases hk with rfl | hk
    · simp
    · exact hk
  · have hfound := Assoc.lookup_putAll_eq_none hkey
    refine ⟨indexInto_hash (by rw [hfound]; rfl) rfl, ?_⟩
    rw [lookup_tableOf, hfound, Option.map_none]
    refine hapart.mono fun k hk => ?_
    rwa [hkeys, List.mem_cons, List.mem_eraseDups, ← List.mem_cons] at hk

end

/-- The entries of `{1: 1, true: 2, "1": 3, 1: 4}`, where a key comes twice. -/
def keyTwice : List (Expr × Expr) :=
  [(.int 1, .int 1), (.bool true, .int 2), (.str "1", .int 3), (.int 1, .int 4)]

/-- The key that comes twice stays in front, and has the value that it had last. -/
theorem Expr.eval_hash_lastValue_keyTwice :
    EntriesEvaluate 0 0 keyTwice .empty
        [(.int 1, .int 1), (.bool true, .int 2), (.str "1", .int 3), (.int 1, .int 4)] .empty ∧
      Key.Apart (fun _ => 0) [.int 1, .bool true, .str "1", .int 1] ∧
      Key.Apart (fun _ => 0) [.int (-1), .int 1, .bool true, .str "1", .int 1] ∧
      ∃ entries, (Expr.hash keyTwice).eval 0 0 .empty = .ok (.hash entries) .empty ∧
        entries.map Prod.fst = [.int 1, .bool true, .str "1"] ∧
        (∀ st, indexInto (.hash entries) (.int 1) st = .ok (.int 4) st) ∧
        ∀ st, indexInto (.hash entries) (.int (-1)) st = .ok .null st := by
  have hevaluate : EntriesEvaluate 0 0 keyTwice .empty
      [(.int 1, .int 1), (.bool true, .int 2), (.str "1", .int 3), (.int 1, .int 4)] .empty :=
    .cons rfl rfl (.cons rfl rfl (.cons rfl rfl (.cons rfl rfl (.nil _))))
  have hapart : Key.Apart (fun _ => 0) [.int 1, .bool true, .str "1", .int 1] := by
    simp [Key.Apart]
  have hapart' : Key.Apart (fun _ => 0) [.int (-1), .int 1, .bool true, .str "1", .int 1] := by
    simp [Key.Apart]
  obtain ⟨entries, heval, -, -, hkeys, -, hfound, habsent, -⟩ :=
    Expr.eval_hash_lastValue hevaluate hapart
  have hlast : LastValue [(.int 1, .int 1), (.bool true, .int 2), (.str "1", .int 3),
      (.int 1, .int 4)] (Key.int 1) (Value.int 4) :=
    ⟨[(.int 1, .int 1), (.bool true, .int 2), (.str "1", .int 3)], [], rfl, by simp⟩
  exact ⟨hevaluate, hapart, hapart', entries, heval, hkeys.trans (by decide),
    (hfound (.int 1) (.int 4) hlast).1, (habsent (.int (-1)) (by decide) hapart').1⟩

end QuoteLang
