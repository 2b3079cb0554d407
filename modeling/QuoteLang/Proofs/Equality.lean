import Mathlib.Data.List.Forall2
import Mathlib.Data.List.Nodup
import Mathlib.Data.List.Perm.Subperm
import QuoteLang.Proofs.Errors
import QuoteLang.Proofs.HashKey
import QuoteLang.Value.Equality

set_option relaxedAutoImplicit false
set_option autoImplicit false

/-!
# Equality is an equivalence

Hashes are compared in one direction: every entry of the one is looked for in the other, and both
have to be of the same length. If no key comes twice in either, this is the same as to say that
under every key both hold equal values, or both none. From this form it is plain that equality does
not ask for the order of the entries, and that it is symmetric and transitive.

## Main definitions

* `Value.DistinctKeys` — no key comes twice in any hash inside a value.

## Main results

* `Value.same_hash_iff` — hashes are equal if they hold equal values under the same keys.
* `Value.same_refl`, `Value.same_symm`, `Value.same_trans` — equality is an equivalence.
* `Value.same_hash_iff_tables` — hashes may as well be compared through their hash keys.
* `Value.same_equivalence` — all of these, and that equal values have the same type, the same truth
  and the same hash key.
-/

namespace QuoteLang

/-! ## Lists and entries -/

/-- Two lists of values are equal exactly if their values are, one by one. -/
lemma sameValues_iff {vs ws : List Value} :
    sameValues vs ws = true ↔ List.Forall₂ (fun v w => v.same w = true) vs ws := by
  induction vs generalizing ws with
  | nil => cases ws <;> simp [sameValues]
  | cons v vs ih => cases ws <;> simp [sameValues, ih]

/-- All keys have equal values among some other entries exactly if for each of them an equal value
is found. -/
lemma containsAll_iff {others entries : List (Key × Value)} :
    containsAll others entries = true ↔
      ∀ e ∈ entries, ∃ v, others.lookup e.1 = some v ∧ e.2.same v = true := by
  refine ⟨fun h => ?_, containsAll_of_lookup⟩
  induction entries with
  | nil => simp
  | cons e rest ih =>
    rw [containsAll, Bool.and_eq_true] at h
    rw [List.forall_mem_cons]
    refine ⟨?_, ih h.2⟩
    cases hv : others.lookup e.1 with
    | none => simp [hv] at h
    | some v => exact ⟨v, rfl, by simpa [hv] using h.1⟩

/-- Where no key comes twice, what is found does not depend on the order of the entries. -/
lemma lookup_eq_of_perm {es fs : List (Key × Value)} (h : es.Perm fs)
    (hes : (es.map Prod.fst).Nodup) (key : Key) : es.lookup key = fs.lookup key := by
  have hfs : (fs.map Prod.fst).Nodup := (h.map Prod.fst).nodup_iff.mp hes
  cases hv : es.lookup key with
  | some v => exact (Assoc.lookup_of_mem hfs (h.mem_iff.mp (Assoc.mem_of_lookup hv))).symm
  | none =>
    rw [Assoc.lookup_eq_none_iff, (h.map Prod.fst).mem_iff] at hv
    exact (Assoc.lookup_eq_none_iff.mpr hv).symm

namespace Value

/-- Two values are equal, as a relation between what is found under a key on either side: nothing,
or equal values. -/
abbrev SameFound (v? w? : Option Value) : Prop :=
  Option.Rel (fun v w => v.same w = true) v? w?

/-- Where one side finds nothing under a key, so does the other. -/
lemma SameFound.eq_none_iff {v? w? : Option Value} (h : SameFound v? w?) :
    v? = none ↔ w? = none := by
  cases h <;> simp

/-- What is found on two sides may be exchanged if the values found may be. -/
lemma SameFound.symm {v? w? : Option Value} (h : SameFound v? w?)
    (hsymm : ∀ v w, v? = some v → w? = some w → v.same w = true → w.same v = true) :
    SameFound w? v? := by
  cases h with
  | none => exact .none
  | some hvw => exact .some (hsymm _ _ rfl rfl hvw)

/-- What is found on three sides is chained if the values found may be. -/
lemma SameFound.trans {u? v? w? : Option Value} (huv : SameFound u? v?) (hvw : SameFound v? w?)
    (htrans : ∀ u v w, u? = some u → v? = some v → w? = some w → u.same v = true →
      v.same w = true → u.same w = true) : SameFound u? w? := by
  cases huv with
  | none => exact hvw
  | some huv =>
    cases hvw with
    | some hvw => exact .some (htrans _ _ _ rfl rfl rfl huv hvw)

/-- **Hashes are equal if they hold equal values under the same keys**, where no key comes twice.

**Proof sketch.** From left to right, the keys of the first hash are among those of the second, and
since there are as many, they are all of them. From right to left, both have the same keys, so there
are as many of them. -/
theorem same_hash_iff {es fs : List (Key × Value)} (hes : (es.map Prod.fst).Nodup)
    (hfs : (fs.map Prod.fst).Nodup) :
    (hash es).same (hash fs) = true ↔ ∀ key, SameFound (es.lookup key) (fs.lookup key) := by
  rw [same, Bool.and_eq_true, beq_iff_eq, containsAll_iff]
  constructor
  · rintro ⟨hlen, hall⟩ key
    have hsub : es.map Prod.fst ⊆ fs.map Prod.fst := by
      intro k hk
      obtain ⟨e, he, rfl⟩ := List.mem_map.mp hk
      obtain ⟨v, hv, -⟩ := hall e he
      exact List.mem_map.mpr ⟨_, Assoc.mem_of_lookup hv, rfl⟩
    have hperm : (es.map Prod.fst).Perm (fs.map Prod.fst) :=
      (List.subperm_of_subset hes hsub).perm_of_length_le (by simp [hlen])
    cases hv : es.lookup key with
    | some v =>
      obtain ⟨w, hw, hsame⟩ := hall _ (Assoc.mem_of_lookup hv)
      rw [hw]
      exact .some hsame
    | none =>
      rw [Assoc.lookup_eq_none_iff, hperm.mem_iff, ← Assoc.lookup_eq_none_iff] at hv
      rw [hv]
      exact .none
  · intro h
    have hmem (key : Key) : key ∈ es.map Prod.fst ↔ key ∈ fs.map Prod.fst := by
      rw [← not_iff_not, ← Assoc.lookup_eq_none_iff, ← Assoc.lookup_eq_none_iff]
      exact (h key).eq_none_iff
    have hperm := (List.perm_ext_iff_of_nodup hes hfs).mpr hmem
    refine ⟨by simpa using hperm.length_eq, fun e he => ?_⟩
    have hfound := h e.1
    rw [Assoc.lookup_of_mem hes he] at hfound
    cases hw : fs.lookup e.1 with
    | none =>
      rw [hw] at hfound
      cases hfound
    | some w =>
      rw [hw] at hfound
      cases hfound with
      | some hsame => exact ⟨w, rfl, hsame⟩

/-! ## An equivalence -/

/-- No key comes twice in any hash inside a value. -/
def DistinctKeys (v : Value) : Prop :=
  ∀ entries, v.Holds (.hash entries) → (entries.map Prod.fst).Nodup

/-- No key comes twice in what is inside a value, if none does in the value. -/
lemma DistinctKeys.of_holds {v w : Value} (h : v.DistinctKeys) (hw : v.Holds w) :
    w.DistinctKeys :=
  fun entries hentries => h entries (hw.trans hentries)

/-- No key comes twice in a hash itself. -/
lemma DistinctKeys.nodup {entries : List (Key × Value)} (h : (hash entries).DistinctKeys) :
    (entries.map Prod.fst).Nodup :=
  h entries (.self _)

/-- No key comes twice in what is found in a hash. -/
lemma DistinctKeys.of_lookup {entries : List (Key × Value)} (h : (hash entries).DistinctKeys)
    {key : Key} {v : Value} (hv : entries.lookup key = some v) : v.DistinctKeys :=
  h.of_holds (.value (Assoc.mem_of_lookup hv) (.self v))

/-- **A value is equal to itself.** -/
theorem same_refl {v : Value} (h : v.DistinctKeys) : v.same v = true := by
  induction v using Value.induction with
  | array items ih =>
    rw [same, sameValues_iff, List.forall₂_same]
    exact fun v hv => ih v hv (h.of_holds (.item hv (.self v)))
  | hash entries ih =>
    rw [same_hash_iff h.nodup h.nodup]
    intro key
    cases hv : entries.lookup key with
    | none => exact .none
    | some v => exact .some (ih _ (Assoc.mem_of_lookup hv) (h.of_lookup hv))
  | returned v ih =>
    rw [same]
    exact ih (h.of_holds (.payload (.self v)))
  | _ => simp [same]

/-- An array is equal to the arrays whose items are equal to its own. -/
lemma same_array_iff {items : List Value} {w : Value} :
    (array items).same w = true ↔
      ∃ others, w = array others ∧ List.Forall₂ (fun v w => v.same w = true) items others := by
  cases w <;> simp [same, sameValues_iff]

/-- A hash is equal to hashes only. -/
lemma exists_of_same_hash {entries : List (Key × Value)} {w : Value}
    (h : (hash entries).same w = true) : ∃ others, w = hash others := by
  cases w <;> simp [same] at h
  exact ⟨_, rfl⟩

/-- A value on its way out is equal to those that carry an equal value. -/
lemma same_returned_iff {v w : Value} :
    (returned v).same w = true ↔ ∃ w', w = returned w' ∧ v.same w' = true := by
  cases w <;> simp [same]

/-- **Equality is symmetric.** -/
theorem same_symm {v w : Value} (hv : v.DistinctKeys) (hw : w.DistinctKeys)
    (h : v.same w = true) : w.same v = true := by
  induction v using Value.induction generalizing w with
  | array items ih =>
    obtain ⟨others, rfl, hall⟩ := same_array_iff.mp h
    refine same_array_iff.mpr ⟨items, rfl, ?_⟩
    rw [List.forall₂_iff_get] at hall ⊢
    refine ⟨hall.1.symm, fun i hi hi' => ?_⟩
    have hmem : items.get ⟨i, hi'⟩ ∈ items := List.get_mem items ⟨i, hi'⟩
    have hmem' : others.get ⟨i, hi⟩ ∈ others := List.get_mem others ⟨i, hi⟩
    exact ih _ hmem (hv.of_holds (.item hmem (.self _))) (hw.of_holds (.item hmem' (.self _)))
      (hall.2 i hi' hi)
  | hash entries ih =>
    obtain ⟨others, rfl⟩ := exists_of_same_hash h
    rw [same_hash_iff hv.nodup hw.nodup] at h
    rw [same_hash_iff hw.nodup hv.nodup]
    exact fun key => (h key).symm fun _ _ ha hb =>
      ih _ (Assoc.mem_of_lookup ha) (hv.of_lookup ha) (hw.of_lookup hb)
  | returned v ih =>
    obtain ⟨w, rfl, hsame⟩ := same_returned_iff.mp h
    have hsymm := ih (hv.of_holds (.payload (.self v))) (hw.of_holds (.payload (.self w))) hsame
    exact same_returned_iff.mpr ⟨v, rfl, hsymm⟩
  | _ => cases w <;> simp_all [same]

/-- **Equality is transitive.** -/
theorem same_trans {u v w : Value} (hu : u.DistinctKeys) (hv : v.DistinctKeys)
    (hw : w.DistinctKeys) (huv : u.same v = true) (hvw : v.same w = true) : u.same w = true := by
  induction u using Value.induction generalizing v w with
  | array items ih =>
    obtain ⟨others, rfl, hab⟩ := same_array_iff.mp huv
    obtain ⟨rest, rfl, hbc⟩ := same_array_iff.mp hvw
    refine same_array_iff.mpr ⟨rest, rfl, ?_⟩
    rw [List.forall₂_iff_get] at hab hbc ⊢
    refine ⟨hab.1.trans hbc.1, fun i hi hi' => ?_⟩
    have hmid : i < others.length := hab.1 ▸ hi
    have hmem : items.get ⟨i, hi⟩ ∈ items := List.get_mem items ⟨i, hi⟩
    have hmem' : others.get ⟨i, hmid⟩ ∈ others := List.get_mem others ⟨i, hmid⟩
    have hmem'' : rest.get ⟨i, hi'⟩ ∈ rest := List.get_mem rest ⟨i, hi'⟩
    exact ih _ hmem (hu.of_holds (.item hmem (.self _))) (hv.of_holds (.item hmem' (.self _)))
      (hw.of_holds (.item hmem'' (.self _))) (hab.2 i hi hmid) (hbc.2 i hmid hi')
  | hash entries ih =>
    obtain ⟨others, rfl⟩ := exists_of_same_hash huv
    obtain ⟨rest, rfl⟩ := exists_of_same_hash hvw
    rw [same_hash_iff hu.nodup hv.nodup] at huv
    rw [same_hash_iff hv.nodup hw.nodup] at hvw
    rw [same_hash_iff hu.nodup hw.nodup]
    exact fun key => (huv key).trans (hvw key) fun _ _ _ ha hb hc =>
      ih _ (Assoc.mem_of_lookup ha) (hu.of_lookup ha) (hv.of_lookup hb) (hw.of_lookup hc)
  | returned u ih =>
    obtain ⟨v, rfl, hab⟩ := same_returned_iff.mp huv
    obtain ⟨w, rfl, hbc⟩ := same_returned_iff.mp hvw
    have htrans := ih (hu.of_holds (.payload (.self u))) (hv.of_holds (.payload (.self v)))
      (hw.of_holds (.payload (.self w))) hab hbc
    exact same_returned_iff.mpr ⟨w, rfl, htrans⟩
  | _ =>
    -- Only a value of the same form is left for the second, and then for the third.
    cases v <;> simp [same] at huv
    cases w <;> simp_all [same]

/-- **The order of the entries makes no difference** to what a hash is equal to, on either side. -/
theorem same_of_perm {es fs : List (Key × Value)} (h : es.Perm fs)
    (hes : (es.map Prod.fst).Nodup) (v : Value) :
    (hash es).same v = (hash fs).same v ∧ v.same (hash es) = v.same (hash fs) := by
  cases v with
  | hash others =>
    have hleft : containsAll others es = containsAll others fs := by
      rw [Bool.eq_iff_iff, containsAll_iff, containsAll_iff]
      simp only [h.mem_iff]
    have hright : containsAll es others = containsAll fs others := by
      rw [Bool.eq_iff_iff, containsAll_iff, containsAll_iff]
      simp only [lookup_eq_of_perm h hes]
    rw [same, same, same, same, h.length_eq, hleft, hright]
    exact ⟨rfl, rfl⟩
  | _ => simp [same]

/-! ## Hash keys -/

section

variable {digest : String → UInt64}

/-- The values of two keys are equal exactly if the keys are the same. -/
lemma same_toValue_iff {k l : Key} : k.toValue.same l.toValue = true ↔ k = l := by
  cases k <;> cases l <;> simp [Key.toValue, same]

/-- **Hashes may be compared through their hash keys**: for each entry of the one there is one of
the other under the same hash key, with an equal key and an equal value. It is enough that no hash
key comes twice in the other.

**Proof sketch.** What is found under a hash key may have been put in under another key, if two
strings share a digest. But then the keys that the entries keep are not equal. -/
theorem same_hash_iff_tables {es fs : List (Key × Value)}
    (hfs : ((tableOf digest fs).map Prod.fst).Nodup) :
    (hash es).same (hash fs) = true ↔
      (tableOf digest es).length = (tableOf digest fs).length ∧
        ∀ t ∈ tableOf digest es, ∃ p, (tableOf digest fs).lookup t.1 = some p ∧
          t.2.1.same p.1 = true ∧ t.2.2.same p.2 = true := by
  have hkeys : (fs.map Prod.fst).Nodup := by
    rw [keys_tableOf] at hfs
    exact List.Nodup.of_map _ hfs
  rw [same, Bool.and_eq_true, beq_iff_eq, containsAll_iff]
  refine and_congr (by simp [tableOf]) ?_
  constructor
  · intro h t ht
    obtain ⟨e, he, rfl⟩ := List.mem_map.mp ht
    obtain ⟨v, hv, hsame⟩ := h e he
    have hmem : tableEntry digest (e.1, v) ∈ tableOf digest fs :=
      List.mem_map_of_mem (Assoc.mem_of_lookup hv)
    exact ⟨_, Assoc.lookup_of_mem hfs hmem, same_toValue_iff.mpr rfl, hsame⟩
  · intro h e he
    obtain ⟨p, hp, hkey, hsame⟩ := h _ (List.mem_map_of_mem he)
    obtain ⟨f, hf, heq⟩ := List.mem_map.mp (Assoc.mem_of_lookup hp)
    obtain rfl : (f.1.toValue, f.2) = p := congrArg Prod.snd heq
    obtain hfe : e.1 = f.1 := same_toValue_iff.mp hkey
    rw [hfe]
    exact ⟨f.2, Assoc.lookup_of_mem hkeys hf, hsame⟩

/-- Equal values have the same truth. -/
lemma same_truthy {v w : Value} (h : v.same w = true) : v.truthy = w.truthy := by
  cases v <;> cases w <;> simp_all [same, truthy]

/-- Equal values have the same key. -/
lemma same_key? {v w : Value} (h : v.same w = true) : v.key? = w.key? := by
  cases v <;> cases w <;> simp_all [same, key?]

/-- The values of keys that share a hash key are equal, if they are apart. -/
lemma same_of_hashKey? {k l : Key} (hapart : Key.Apart digest [k, l])
    (h : k.toValue.hashKey? digest = l.toValue.hashKey? digest) :
    k.toValue.same l.toValue = true := by
  rw [hashKey?_toValue, hashKey?_toValue, Option.some_inj] at h
  exact same_toValue_iff.mpr (hapart.inj (by simp) (by simp) h)

end

/-- **Equality is an equivalence that hash keys and conditions respect**, whatever the digest of
strings.

* It is reflexive, symmetric and transitive on the values in which no key of a hash comes twice.
* The order of the entries of a hash makes no difference.
* To compare hashes through their hash keys comes to the same.
* Equal values have the same type, the same truth and the same hash key, if they have one.
* Integers, and truth values, that share a hash key are equal; so are strings whose digests differ
  if they do. -/
theorem same_equivalence (digest : String → UInt64) :
    Equivalence (fun v w : {v : Value // v.DistinctKeys} => v.1.same w.1 = true) ∧
      (∀ es fs, es.Perm fs → (es.map Prod.fst).Nodup →
        ∀ v, (hash es).same v = (hash fs).same v ∧ v.same (hash es) = v.same (hash fs)) ∧
      (∀ es fs, ((tableOf digest fs).map Prod.fst).Nodup →
        ((hash es).same (hash fs) = true ↔
          (tableOf digest es).length = (tableOf digest fs).length ∧
            ∀ t ∈ tableOf digest es, ∃ p, (tableOf digest fs).lookup t.1 = some p ∧
              t.2.1.same p.1 = true ∧ t.2.2.same p.2 = true)) ∧
      (∀ v w : Value, v.same w = true →
        v.type = w.type ∧ v.truthy = w.truthy ∧ v.hashKey? digest = w.hashKey? digest) ∧
      (∀ m n : Int64, (int m).hashKey? digest = (int n).hashKey? digest →
        (int m).same (int n) = true) ∧
      (∀ a b : Bool, (bool a).hashKey? digest = (bool b).hashKey? digest →
        (bool a).same (bool b) = true) ∧
      (∀ s t : String, (digest s = digest t → s = t) →
        (str s).hashKey? digest = (str t).hashKey? digest → (str s).same (str t) = true) := by
  refine ⟨⟨fun v => same_refl v.2, fun {v w} => same_symm v.2 w.2, fun {u v w} =>
    same_trans u.2 v.2 w.2⟩, fun es fs hperm hes v => same_of_perm hperm hes v,
    fun es fs => same_hash_iff_tables, fun v w h => ⟨same_type h, same_truthy h, ?_⟩,
    fun m n => ?_, fun a b => ?_, fun s t hst => ?_⟩
  · rw [hashKey?, hashKey?, same_key? h]
  · exact same_of_hashKey? (k := .int m) (l := .int n) (by simp [Key.Apart])
  · exact same_of_hashKey? (k := .bool a) (l := .bool b) (by simp [Key.Apart])
  · exact same_of_hashKey? (k := .str s) (l := .str t) (Key.apart_pair hst)

/-- A hash with a negative key and a string as keys. -/
def twoEntries : List (Key × Value) :=
  [(.int (-1), .null), (.str "a", .array [.int 2])]

/-- With a digest that all strings share, a hash is still equal to itself with its entries in
another order, and a string is still another key than the string that shares its hash key. -/
theorem same_equivalence_shared :
    (hash twoEntries).same (hash twoEntries.reverse) = true ∧
      ((str "a").hashKey? fun _ => 0) = ((str "b").hashKey? fun _ => 0) ∧
      (hash [(.str "a", .null)]).same (hash [(.str "b", .null)]) = false := by
  obtain ⟨-, hperm, htables, -⟩ := same_equivalence fun _ => 0
  have horder := hperm _ _ twoEntries.reverse_perm.symm (by decide) (hash twoEntries.reverse)
  refine ⟨horder.1.trans (by decide), rfl, ?_⟩
  rw [Bool.eq_false_iff, ne_eq, htables _ _ (by decide)]
  rintro ⟨-, hfound⟩
  obtain ⟨p, hp, hkey, -⟩ := hfound _ List.mem_cons_self
  cases hp
  simp [tableEntry, Key.toValue, same] at hkey

end Value

end QuoteLang
