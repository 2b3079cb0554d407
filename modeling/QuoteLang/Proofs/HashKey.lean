import Mathlib.Tactic.Lemma
import QuoteLang.Assoc
import QuoteLang.Value

set_option relaxedAutoImplicit false
set_option autoImplicit false

/-!
# Hash keys

A hash may keep its entries under small keys of one shape: the type of the key and a word of 64
bits. Integers and truth values are their own words, and the word of a string is a digest of its
text, which some other string may share. An entry keeps the key that it was put in under besides its
value.

Nothing is assumed of the digest. As long as the strings that are put in and looked for have
different digests, these tables do what lists of entries with the keys themselves do.

## Main definitions

* `HashKey`, `Key.hashKey`, `Value.hashKey?` — hash keys, and those of keys and values.
* `Key.Apart` — no two strings among some keys have the same digest.
* `tableOf` — the entries of a hash under their hash keys.

## Main results

* `Key.hashKey_eq_iff` — two keys share a hash key only if they are strings that share a digest.
* `tableOf_put`, `lookup_tableOf` — putting in and looking up under hash keys.
-/

namespace QuoteLang

variable {digest : String → UInt64}

/-! ## Keys -/

/-- The key that an entry of a hash is kept under: a type, and a word of 64 bits. -/
structure HashKey where
  /-- The type of the key. -/
  type : ValueType
  /-- The word that tells keys of one type apart. -/
  word : UInt64
deriving DecidableEq

/-- The word of a key. Strings are represented by their digests. -/
def Key.word (digest : String → UInt64) : Key → UInt64
  | int n => n.toUInt64
  | bool b => if b then 1 else 0
  | str s => digest s

/-- The hash key of a key. -/
def Key.hashKey (digest : String → UInt64) (k : Key) : HashKey :=
  ⟨k.toValue.type, k.word digest⟩

/-- The hash key of a value, if it may be a key. -/
def Value.hashKey? (digest : String → UInt64) (v : Value) : Option HashKey :=
  v.key?.map (Key.hashKey digest)

/-- The value that is a key has the hash key of that key. -/
lemma Value.hashKey?_toValue (k : Key) : k.toValue.hashKey? digest = some (k.hashKey digest) := by
  rw [hashKey?, key?_toValue, Option.map_some]

/-- **Hash keys collide on strings only**: two keys that share a hash key are the same, or both are
strings and share a digest. -/
theorem Key.hashKey_eq_iff {a b : Key} :
    a.hashKey digest = b.hashKey digest ↔
      a = b ∨ ∃ s t, a = str s ∧ b = str t ∧ digest s = digest t := by
  cases a <;> cases b <;> simp [hashKey, toValue, Value.type, word]
  · -- Integers and truth values are told apart by their words, as it is known of `Key.word?`.
    rename_i m n
    simpa [word?] using word?_int_inj (m := m) (n := n)
  · rename_i a b
    simpa [word?] using word?_bool_inj (a := a) (b := b)
  · rename_i s t
    exact fun h => congrArg digest h

/-- Some keys are **apart** if no two different strings among them have the same digest. -/
def Key.Apart (digest : String → UInt64) (keys : List Key) : Prop :=
  ∀ s t, str s ∈ keys → str t ∈ keys → digest s = digest t → s = t

/-- Keys that are apart have different hash keys. -/
lemma Key.Apart.inj {keys : List Key} (h : Apart digest keys) {a b : Key} (ha : a ∈ keys)
    (hb : b ∈ keys) (hab : a.hashKey digest = b.hashKey digest) : a = b := by
  rcases hashKey_eq_iff.mp hab with rfl | ⟨s, t, rfl, rfl, hst⟩
  · rfl
  · rw [h s t ha hb hst]

/-- Keys that are apart are apart from one another where there are fewer of them. -/
lemma Key.Apart.mono {keys keys' : List Key} (h : Apart digest keys) (hsub : keys' ⊆ keys) :
    Apart digest keys' :=
  fun s t hs ht => h s t (hsub hs) (hsub ht)

/-- Two strings are apart if their digests differ or they are the same. -/
lemma Key.apart_pair {s t : String} (h : digest s = digest t → s = t) :
    Apart digest [str s, str t] := by
  intro s' t' hs ht hdigest
  simp only [List.mem_cons, str.injEq, List.not_mem_nil, or_false] at hs ht
  rcases hs with rfl | rfl <;> rcases ht with rfl | rfl
  · rfl
  · exact h hdigest
  · exact (h hdigest.symm).symm
  · rfl

/-! ## Tables -/

/-- An entry under its hash key, with the key that it was put in under and its value. -/
def tableEntry (digest : String → UInt64) (e : Key × Value) : HashKey × Value × Value :=
  (e.1.hashKey digest, e.1.toValue, e.2)

/-- The entries of a hash under their hash keys. -/
def tableOf (digest : String → UInt64) (entries : List (Key × Value)) :
    List (HashKey × Value × Value) :=
  entries.map (tableEntry digest)

/-- The hash keys of a table are those of its keys. -/
lemma keys_tableOf (entries : List (Key × Value)) :
    (tableOf digest entries).map Prod.fst =
      (entries.map Prod.fst).map (Key.hashKey digest) := by
  simp [tableOf, tableEntry]

/-- The key that an entry keeps has the hash key that the entry is kept under. -/
lemma hashKey?_of_mem_tableOf {entries : List (Key × Value)} {t : HashKey × Value × Value}
    (h : t ∈ tableOf digest entries) : t.2.1.hashKey? digest = some t.1 := by
  obtain ⟨e, -, rfl⟩ := List.mem_map.mp h
  exact Value.hashKey?_toValue e.1

/-- **Putting in under a hash key** is putting in under the key, if the keys are apart. -/
theorem tableOf_put {key : Key} {value : Value} {entries : List (Key × Value)}
    (h : Key.Apart digest (key :: entries.map Prod.fst)) :
    tableOf digest (Assoc.put key value entries) =
      Assoc.put (key.hashKey digest) (key.toValue, value) (tableOf digest entries) := by
  induction entries with
  | nil => rfl
  | cons e rest ih =>
    obtain ⟨k, v⟩ := e
    have hrest := ih (h.mono (by simp))
    by_cases hk : k = key
    · subst hk
      simp [tableOf, tableEntry, Assoc.put]
    · have hne : k.hashKey digest ≠ key.hashKey digest :=
        fun heq => hk (h.inj (by simp) (by simp) heq)
      simp only [tableOf] at hrest
      simp [tableOf, tableEntry, Assoc.put, hk, hne, hrest]

/-- **Looking up a hash key** is looking up the key, if the keys are apart. -/
theorem lookup_tableOf {key : Key} {entries : List (Key × Value)}
    (h : Key.Apart digest (key :: entries.map Prod.fst)) :
    (tableOf digest entries).lookup (key.hashKey digest) =
      (entries.lookup key).map fun v => (key.toValue, v) := by
  induction entries with
  | nil => rfl
  | cons e rest ih =>
    obtain ⟨k, v⟩ := e
    have hrest := ih (h.mono (by simp))
    by_cases hk : key = k
    · subst hk
      simp [tableOf, tableEntry]
    · have hne : key.hashKey digest ≠ k.hashKey digest :=
        fun heq => hk (h.inj (by simp) (by simp) heq)
      simp only [tableOf] at hrest
      simp [tableOf, tableEntry, List.lookup_cons, beq_false_of_ne hk, beq_false_of_ne hne, hrest]

end QuoteLang
