set_option relaxedAutoImplicit false
set_option autoImplicit false

/-!
# Association lists

Lists of keys with their values that keep the order in which keys were first put in.

## Main definitions

* `Assoc.put` — puts in a value under a key: in place if the key is there, and at the end if not.
* `Assoc.putSorted` — the same for lists that are sorted by key.

## Main results

* `Assoc.lookup_put_self`, `Assoc.lookup_put_of_ne` — what is found after `Assoc.put`.
* `Assoc.keys_put`, `Assoc.nodup_keys_put` — the keys after `Assoc.put`, and that none comes twice.
* `Assoc.put_of_notMem` — a new key is put in at the end.
* `Assoc.mem_of_lookup`, `Assoc.lookup_of_mem` — what is found is there, and the other way round if
  no key comes twice.
* `Assoc.lookup_eq_none_iff` — nothing is found under what is no key.
* `Assoc.lookup_putSorted_self`, `Assoc.lookup_putSorted_of_ne` — what is found after
  `Assoc.putSorted`.
* `Assoc.mem_keys_putSorted`, `Assoc.sorted_putSorted` — the names after `Assoc.putSorted`, and that
  they are still sorted.
* `Assoc.names_foldl_putSorted`, `Assoc.lookup_foldl_putSorted` — the same after several values were
  put in.
-/

namespace QuoteLang

namespace Assoc

variable {κ ν : Type} [DecidableEq κ]

/-! ## In order of insertion -/

/-- Puts in a value under a key: in place of the old value if the key is there, and at the end
otherwise. -/
def put (key : κ) (value : ν) : List (κ × ν) → List (κ × ν)
  | [] => [(key, value)]
  | (k, v) :: rest => if k = key then (key, value) :: rest else (k, v) :: put key value rest

/-- The value put in under a key is found there. -/
theorem lookup_put_self (key : κ) (value : ν) (entries : List (κ × ν)) :
    (put key value entries).lookup key = some value := by
  induction entries with
  | nil => simp [put]
  | cons e rest ih =>
    obtain ⟨k, v⟩ := e
    unfold put
    split
    · simp
    · rename_i h
      have hne : (key == k) = false := by simpa using fun h' => h h'.symm
      simpa [List.lookup_cons, hne] using ih

/-- What is found under other keys stays the same. -/
theorem lookup_put_of_ne {key other : κ} (h : other ≠ key) (value : ν) (entries : List (κ × ν)) :
    (put key value entries).lookup other = entries.lookup other := by
  induction entries with
  | nil => simp [put, h]
  | cons e rest ih =>
    obtain ⟨k, v⟩ := e
    unfold put
    split
    · rename_i hk
      subst hk
      have hne : (other == k) = false := by simpa using h
      simp [List.lookup_cons, hne]
    · simp only [List.lookup_cons, ih]

/-- The keys stay where they are; a key that was not there comes last. -/
theorem keys_put (key : κ) (value : ν) (entries : List (κ × ν)) :
    (put key value entries).map Prod.fst =
      if key ∈ entries.map Prod.fst then entries.map Prod.fst
      else entries.map Prod.fst ++ [key] := by
  induction entries with
  | nil => simp [put]
  | cons e rest ih =>
    obtain ⟨k, v⟩ := e
    unfold put
    by_cases hk : k = key
    · simp [hk]
    · simp only [hk, if_false, List.map_cons, ih, List.mem_cons]
      by_cases hmem : key ∈ rest.map Prod.fst
      · simp [hmem]
      · simp [hmem, Ne.symm hk]

/-- No key comes twice if none did before. -/
theorem nodup_keys_put (key : κ) (value : ν) {entries : List (κ × ν)}
    (h : (entries.map Prod.fst).Nodup) : ((put key value entries).map Prod.fst).Nodup := by
  rw [keys_put]
  split
  · exact h
  · rename_i hmem
    rw [List.nodup_append]
    refine ⟨h, by simp, ?_⟩
    rintro a ha b hb rfl
    exact hmem (by simpa [List.mem_singleton.mp hb] using ha)

/-- A value is put in at the end if its key is not there. -/
theorem put_of_notMem {key : κ} {entries : List (κ × ν)} (h : key ∉ entries.map Prod.fst)
    (value : ν) : put key value entries = entries ++ [(key, value)] := by
  induction entries with
  | nil => rfl
  | cons e rest ih =>
    obtain ⟨k, v⟩ := e
    rw [List.map_cons, List.mem_cons, not_or] at h
    rw [put, if_neg (Ne.symm h.1), ih h.2, List.cons_append]

/-- What is found under a key is there. -/
theorem mem_of_lookup {key : κ} {value : ν} {entries : List (κ × ν)}
    (h : entries.lookup key = some value) : (key, value) ∈ entries := by
  obtain ⟨before, after, rfl, -⟩ := List.lookup_eq_some_iff.mp h
  exact List.mem_append_right before List.mem_cons_self

/-- What is there under a key is found, if no key comes twice. -/
theorem lookup_of_mem {entries : List (κ × ν)} (hnodup : (entries.map Prod.fst).Nodup) {key : κ}
    {value : ν} (h : (key, value) ∈ entries) : entries.lookup key = some value := by
  obtain ⟨before, after, rfl⟩ := List.append_of_mem h
  refine List.lookup_eq_some_iff.mpr ⟨before, after, rfl, fun p hp => ?_⟩
  rw [List.map_append, List.map_cons] at hnodup
  have hne := (List.nodup_append.mp hnodup).2.2 p.1 (List.mem_map_of_mem hp) key List.mem_cons_self
  exact bne_iff_ne.mpr hne.symm

/-- A key is different from all keys of a list exactly if it is none of them. -/
theorem forall_bne_iff {key : κ} {entries : List (κ × ν)} :
    (∀ e ∈ entries, (key != e.1) = true) ↔ key ∉ entries.map Prod.fst := by
  constructor
  · intro h hmem
    obtain ⟨e, he, rfl⟩ := List.mem_map.mp hmem
    exact bne_iff_ne.mp (h e he) rfl
  · rintro h e he
    exact bne_iff_ne.mpr fun heq => h (heq ▸ List.mem_map_of_mem he)

/-- Nothing is found under a key exactly if it is none of the keys. -/
theorem lookup_eq_none_iff {key : κ} {entries : List (κ × ν)} :
    entries.lookup key = none ↔ key ∉ entries.map Prod.fst :=
  List.lookup_eq_none_iff.trans forall_bne_iff

/-! ## Sorted by key -/

/-- Puts a value under a name into a list that is sorted by name: in place of the old value if the
name is there, and before the first larger name otherwise. -/
def putSorted (name : String) (value : ν) : List (String × ν) → List (String × ν)
  | [] => [(name, value)]
  | (k, v) :: rest =>
    if k = name then (name, value) :: rest
    else if name < k then (name, value) :: (k, v) :: rest
    else (k, v) :: putSorted name value rest

/-- The value put in under a name is found there. -/
theorem lookup_putSorted_self (name : String) (value : ν) (entries : List (String × ν)) :
    (putSorted name value entries).lookup name = some value := by
  induction entries with
  | nil => simp [putSorted]
  | cons e rest ih =>
    obtain ⟨k, v⟩ := e
    unfold putSorted
    split
    · simp
    split
    · simp
    · rename_i h _
      have hne : (name == k) = false := by simpa using fun h' => h h'.symm
      simpa [List.lookup_cons, hne] using ih

/-- What is found under other names stays the same. -/
theorem lookup_putSorted_of_ne {name other : String} (h : other ≠ name) (value : ν)
    (entries : List (String × ν)) :
    (putSorted name value entries).lookup other = entries.lookup other := by
  have hne : (other == name) = false := by simpa using h
  induction entries with
  | nil => simp [putSorted, h]
  | cons e rest ih =>
    obtain ⟨k, v⟩ := e
    unfold putSorted
    split
    · rename_i hk
      subst hk
      simp [List.lookup_cons, hne]
    split
    · simp [List.lookup_cons, hne]
    · simp only [List.lookup_cons, ih]

/-- The names after a value was put in: those that were there before, and the one it was put in
under. -/
theorem mem_keys_putSorted {name other : String} (value : ν) {entries : List (String × ν)} :
    other ∈ (putSorted name value entries).map Prod.fst ↔
      other = name ∨ other ∈ entries.map Prod.fst := by
  induction entries with
  | nil => simp [putSorted]
  | cons e rest ih =>
    obtain ⟨k, v⟩ := e
    unfold putSorted
    split
    · rename_i h
      subst h
      simp
    split
    · simp
    · simp only [List.map_cons, List.mem_cons, ih]
      exact or_left_comm

/-- A list that is sorted by name, where no name comes twice, stays so. -/
theorem sorted_putSorted (name : String) (value : ν) {entries : List (String × ν)}
    (h : (entries.map Prod.fst).Pairwise (· < ·)) :
    ((putSorted name value entries).map Prod.fst).Pairwise (· < ·) := by
  induction entries with
  | nil => exact List.pairwise_singleton _ _
  | cons e rest ih =>
    obtain ⟨k, v⟩ := e
    have hrest := List.pairwise_cons.mp h
    unfold putSorted
    split
    · rename_i hk
      rw [List.map_cons, ← hk]
      exact h
    split
    · rename_i hlt
      refine List.pairwise_cons.mpr ⟨fun other hother => ?_, h⟩
      rcases List.mem_cons.mp hother with rfl | hother
      · exact hlt
      · exact String.lt_trans hlt (hrest.1 other hother)
    · rename_i hne hlt
      refine List.pairwise_cons.mpr ⟨fun other hother => ?_, ih hrest.2⟩
      rcases (mem_keys_putSorted value).mp hother with rfl | hother
      · rcases Std.lt_trichotomy k other with hlt' | heq | hlt'
        · exact hlt'
        · exact absurd heq hne
        · exact absurd hlt' hlt
      · exact hrest.1 other hother

/-- The names after several values were put in one after the other, and that they are still
sorted. -/
theorem names_foldl_putSorted (pairs acc : List (String × ν))
    (hacc : (acc.map Prod.fst).Pairwise (· < ·)) :
    let all := pairs.foldl (fun acc p => putSorted p.1 p.2 acc) acc
    (all.map Prod.fst).Pairwise (· < ·) ∧
      ∀ name, name ∈ all.map Prod.fst ↔ name ∈ acc.map Prod.fst ∨ name ∈ pairs.map Prod.fst := by
  induction pairs generalizing acc with
  | nil => exact ⟨hacc, fun name => by simp⟩
  | cons p pairs ih =>
    obtain ⟨hsorted, hmem⟩ := ih _ (sorted_putSorted p.1 p.2 hacc)
    refine ⟨hsorted, fun name => (hmem name).trans ?_⟩
    rw [mem_keys_putSorted, List.map_cons, List.mem_cons]
    exact or_assoc.trans or_left_comm

/-- What is found after several values were put in one after the other: what is found among them,
and else what was there before. -/
theorem lookup_foldl_putSorted {pairs : List (String × ν)} (hnodup : (pairs.map Prod.fst).Nodup)
    (acc : List (String × ν)) (name : String) :
    (pairs.foldl (fun acc p => putSorted p.1 p.2 acc) acc).lookup name =
      (pairs.lookup name).or (acc.lookup name) := by
  induction pairs generalizing acc with
  | nil => rfl
  | cons p pairs ih =>
    rw [List.map_cons, List.nodup_cons] at hnodup
    rw [List.foldl_cons, ih hnodup.2, List.lookup_cons]
    by_cases h : name = p.1
    · have hnone : pairs.lookup name = none := lookup_eq_none_iff.mpr (h ▸ hnodup.1)
      rw [hnone, h, lookup_putSorted_self, beq_self_eq_true]
      rfl
    · rw [lookup_putSorted_of_ne h, beq_false_of_ne h]

end Assoc

end QuoteLang
