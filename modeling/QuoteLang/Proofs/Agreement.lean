import QuoteLang.Proofs.Vocabulary
import QuoteLang.Proofs.Writes

set_option relaxedAutoImplicit false
set_option autoImplicit false

/-!
# Stores that agree

Two stores with the same numbers of scopes and functions agree in what a vocabulary can name: the
scopes that can be met bind the same under its names. What they bind under other names is of no
concern, and neither is a scope further out that binds nothing.

The scopes that can be met are those that were there before and can be reached, and all that are
made later.

## Main definitions

* `Scope.Agrees`, `Store.Agrees` — two scopes, or stores, agree in what a vocabulary can name.

## Main results

* `Store.Agrees.bind`, `Store.Agrees.enclose` — stores agree after the same has been done in both.
* `Store.Agrees.lookup`, `Store.Agrees.visible` — what is found in stores that agree is the same.
-/

namespace QuoteLang

open Run

/-! ## Association lists -/

namespace Assoc

variable {κ ν : Type} [DecidableEq κ] {p : κ → Bool}

/-- What is found under a key is found among some keys that it is one of. -/
lemma lookup_filter {key : κ} (h : p key) (entries : List (κ × ν)) :
    (entries.filter (p ·.1)).lookup key = entries.lookup key := by
  induction entries with
  | nil => rfl
  | cons e rest ih =>
    obtain ⟨k, v⟩ := e
    rw [List.filter_cons]
    by_cases hk : key = k
    · subst hk
      rw [if_pos h, List.lookup_cons, List.lookup_cons, beq_self_eq_true]
    · have hne : (key == k) = false := beq_false_of_ne hk
      split
      · rw [List.lookup_cons, List.lookup_cons, hne]
        exact ih
      · rw [List.lookup_cons, hne]
        exact ih

/-- Among some keys, a value that is put in under one of them is put in, and any other is not
there. -/
lemma filter_put (key : κ) (value : ν) (entries : List (κ × ν)) :
    (put key value entries).filter (p ·.1) =
      if p key then put key value (entries.filter (p ·.1)) else entries.filter (p ·.1) := by
  induction entries with
  | nil => by_cases hp : p key <;> simp [put, hp]
  | cons e rest ih =>
    obtain ⟨k, v⟩ := e
    rw [put]
    by_cases hk : k = key
    · subst hk
      by_cases hp : p k <;> simp [hp, put]
    · rw [if_neg hk, List.filter_cons, List.filter_cons, ih]
      by_cases hp : p key <;> by_cases hpk : p k <;> simp [hp, hpk, put, hk]

/-- A value is put in first, if all names are larger. -/
lemma putSorted_of_forall_lt {name : String} {entries : List (String × ν)}
    (h : ∀ e ∈ entries, name < e.1) (value : ν) :
    putSorted name value entries = (name, value) :: entries := by
  cases entries with
  | nil => rfl
  | cons e rest =>
    obtain ⟨k, v⟩ := e
    have hlt : name < k := h (k, v) List.mem_cons_self
    have hne : k ≠ name := by
      rintro rfl
      exact String.lt_irrefl k hlt
    rw [putSorted, if_neg hne, if_pos hlt]

/-- Among some names, a value that is put in under one of them is put in, and any other is not
there. -/
lemma filter_putSorted {p : String → Bool} (name : String) (value : ν)
    {entries : List (String × ν)} (h : (entries.map Prod.fst).Pairwise (· < ·)) :
    (putSorted name value entries).filter (p ·.1) =
      if p name then putSorted name value (entries.filter (p ·.1)) else entries.filter (p ·.1) := by
  induction entries with
  | nil => by_cases hp : p name <;> simp [putSorted, hp]
  | cons e rest ih =>
    obtain ⟨k, v⟩ := e
    rw [List.map_cons, List.pairwise_cons] at h
    rw [putSorted]
    split
    · rename_i hk
      subst hk
      by_cases hp : p k <;> simp [hp, putSorted]
    split
    · rename_i hne hlt
      have hall : ∀ e ∈ (((k, v) :: rest).filter (p ·.1)), name < e.1 := by
        intro e he
        rcases List.mem_cons.mp (List.mem_of_mem_filter he) with rfl | he
        · exact hlt
        · exact String.lt_trans hlt (h.1 _ (List.mem_map_of_mem he))
      rw [putSorted_of_forall_lt hall, List.filter_cons (x := (name, value))]
    · rename_i hne hlt
      rw [List.filter_cons, List.filter_cons, ih h.2]
      by_cases hp : p name <;> by_cases hpk : p k <;> simp [hp, hpk, putSorted, hne, hlt]

/-- Among some names, what is put in one after the other is what is put in under these names. -/
lemma filter_foldl_putSorted {p : String → Bool} (pairs : List (String × ν))
    {acc : List (String × ν)} (h : (acc.map Prod.fst).Pairwise (· < ·)) :
    (pairs.foldl (fun acc e => putSorted e.1 e.2 acc) acc).filter (p ·.1) =
      (pairs.filter (p ·.1)).foldl (fun acc e => putSorted e.1 e.2 acc) (acc.filter (p ·.1)) := by
  induction pairs generalizing acc with
  | nil => rfl
  | cons e pairs ih =>
    rw [List.foldl_cons, ih (sorted_putSorted e.1 e.2 h), filter_putSorted _ _ h, List.filter_cons]
    by_cases hp : p e.1 <;> simp [hp]

end Assoc

/-- The names that can be seen from a scope are sorted. -/
lemma Store.sorted_visible (st : Store) (scope : ScopeId) :
    ((st.visible scope).map Prod.fst).Pairwise (· < ·) := by
  induction scope using Nat.strongRecOn with
  | _ scope ih =>
    rw [Store.visible]
    split
    · exact .nil
    · refine (Assoc.names_foldl_putSorted _ _ ?_).1
      split
      · exact .nil
      · split
        · exact ih _ ‹_›
        · exact .nil

/-! ## Stores that agree -/

/-- Two outer scopes agree: they are the same, or there is none on the left, and on the right one
that is never met, binds nothing and leads nowhere. -/
inductive OuterAgrees (I : ScopeId → Prop) (other : Store) : Option ScopeId → Option ScopeId → Prop
  /-- There is none on either side. -/
  | none : OuterAgrees I other none none
  /-- It is the same on both sides, and may be met. -/
  | same {o : ScopeId} (ho : I o) : OuterAgrees I other (some o) (some o)
  /-- There is one on the right only, which adds nothing. -/
  | blank {o : ScopeId} (ho : ¬I o) (hblank : other.scopes[o]? = some ⟨[], Option.none⟩) :
      OuterAgrees I other Option.none (some o)

/-- Two scopes agree: they bind the same under the names of a vocabulary, and only what is clean,
and their outer scopes agree. -/
structure Scope.Agrees (V : Vocabulary) (I : ScopeId → Prop) (other : Store) (s t : Scope) :
    Prop where
  /-- Under the names of the vocabulary the same is bound. -/
  bindings : s.bindings.filter (V.names ·.1) = t.bindings.filter (V.names ·.1)
  /-- What is bound is clean. -/
  clean : ∀ p ∈ s.bindings, V.names p.1 → p.2.Clean V I
  /-- The outer scopes agree. -/
  outer : OuterAgrees I other s.outer t.outer

/-- Two stores **agree** in what a vocabulary can name: they have made as many scopes and functions
and written the same text, and the scopes that can be met agree. -/
structure Store.Agrees (V : Vocabulary) (I : ScopeId → Prop) (st st' : Store) : Prop where
  /-- As many scopes have been made. -/
  size_eq : st'.scopes.size = st.scopes.size
  /-- As many functions have been made. -/
  closures_eq : st'.closures = st.closures
  /-- The same text has been written. -/
  output_eq : st'.output = st.output
  /-- All scopes that are made later can be met. -/
  later {i : ScopeId} : st.scopes.size ≤ i → I i
  /-- The scopes that can be met agree. -/
  scopes {i : ScopeId} : I i → Option.Rel (Scope.Agrees V I st') st.scopes[i]? st'.scopes[i]?

section

variable {V : Vocabulary} {I : ScopeId → Prop}

/-- Outer scopes agree as long as the scopes stay as they are that are never met. -/
lemma OuterAgrees.mono {other other' : Store} {o o' : Option ScopeId}
    (h : OuterAgrees I other o o')
    (hother : ∀ i s, ¬I i → other.scopes[i]? = some s → other'.scopes[i]? = some s) :
    OuterAgrees I other' o o' := by
  cases h with
  | none => exact .none
  | same ho => exact .same ho
  | blank ho hblank => exact .blank ho (hother _ _ ho hblank)

/-- Scopes agree as long as the scopes stay as they are that are never met. -/
lemma Scope.Agrees.mono {other other' : Store} {s t : Scope} (h : s.Agrees V I other t)
    (hother : ∀ i s, ¬I i → other.scopes[i]? = some s → other'.scopes[i]? = some s) :
    s.Agrees V I other' t :=
  ⟨h.bindings, h.clean, h.outer.mono hother⟩

/-- Scopes that agree bind the same under a name of the vocabulary. -/
lemma Scope.Agrees.lookup {other : Store} {s t : Scope} (h : s.Agrees V I other t) {name : String}
    (hname : V.names name) : t.bindings.lookup name = s.bindings.lookup name := by
  rw [← Assoc.lookup_filter (p := V.names) hname, ← h.bindings,
    Assoc.lookup_filter (p := V.names) hname]

/-- A store agrees with itself if all that is bound is within the vocabulary. -/
lemma Store.All.agrees {st : Store} (h : st.All (Value.Within V)) :
    st.Agrees V (fun _ => True) st where
  size_eq := rfl
  closures_eq := rfl
  output_eq := rfl
  later _ := trivial
  scopes {i} _ := by
    cases hs : st.scopes[i]? with
    | none => exact .none
    | some s =>
      refine .some ⟨rfl, fun p hp _ => h i s hs p hp, ?_⟩
      cases s.outer with
      | none => exact .none
      | some o => exact .same trivial

namespace Store.Agrees

variable {st st' : Store} {i : ScopeId}

/-- In a store that agrees with another all that is bound is within the vocabulary, if that has all
names. -/
lemma all (hV : ∀ name, V.names name) (h : st.Agrees V (fun _ => True) st') :
    st.All (Value.Within V) := by
  intro i s hs p hp
  have hscopes := h.scopes (i := i) trivial
  rw [hs] at hscopes
  generalize st'.scopes[i]? = t at hscopes
  cases hscopes with
  | some hst => exact hst.clean p hp (hV p.1)

/-! ### What is done in both stores -/

/-- A name is bound to a clean value in both stores. -/
theorem bind (h : st.Agrees V I st') (hi : I i) (name : String) {v : Value} (hv : v.Clean V I) :
    (st.bind i name v).Agrees V I (st'.bind i name v) where
  size_eq := by simpa [Store.bind] using h.size_eq
  closures_eq := h.closures_eq
  output_eq := h.output_eq
  later hle := h.later (by simpa [Store.bind] using hle)
  scopes {j} hj := by
    have hother (k : ScopeId) (s : Scope) (hk : ¬I k) (hs : st'.scopes[k]? = some s) :
        (st'.bind i name v).scopes[k]? = some s := by
      have hne : i ≠ k := fun heq => hk (heq ▸ hi)
      simpa only [Store.bind, Array.getElem?_modify, hne, if_false] using hs
    have hscopes := h.scopes hj
    simp only [Store.bind, Array.getElem?_modify]
    generalize st.scopes[j]? = s at hscopes
    generalize st'.scopes[j]? = t at hscopes
    cases hscopes with
    | none => split <;> exact .none
    | some hst =>
      split
      · refine .some ⟨?_, fun p hp hname => ?_, hst.outer.mono hother⟩
        · rw [Assoc.filter_put (p := V.names), Assoc.filter_put (p := V.names), hst.bindings]
        · rcases Assoc.mem_put hp with hp | rfl
          · exact hst.clean p hp hname
          · exact hv
      · exact .some (hst.mono hother)

/-- Several names are bound to clean values in both stores. -/
lemma bindAll (h : st.Agrees V I st') (hi : I i) {pairs : List (String × Value)}
    (hpairs : ∀ p ∈ pairs, p.2.Clean V I) :
    (st.bindAll i pairs).Agrees V I (st'.bindAll i pairs) := by
  induction pairs generalizing st st' with
  | nil => exact h
  | cons p pairs ih =>
    rw [List.forall_mem_cons] at hpairs
    exact ih (h.bind hi p.1 hpairs.1) hpairs.2

/-- A scope is made in both stores. -/
theorem enclose (h : st.Agrees V I st') (hi : I i) :
    (st.enclose i).2.Agrees V I (st'.enclose i).2 where
  size_eq := by simp [Store.enclose, Store.newScope, h.size_eq]
  closures_eq := h.closures_eq
  output_eq := h.output_eq
  later hle := by
    simp only [Store.enclose, Store.newScope, Array.size_push] at hle
    exact h.later (Nat.le_of_succ_le hle)
  scopes {j} hj := by
    have hother (k : ScopeId) (s : Scope) (_ : ¬I k) (hs : st'.scopes[k]? = some s) :
        (st'.enclose i).2.scopes[k]? = some s := by
      have hne : k ≠ st'.scopes.size := Nat.ne_of_lt (Array.getElem?_eq_some_iff.mp hs).1
      simpa only [Store.enclose, Store.newScope, Array.getElem?_push, hne, if_false] using hs
    have hscopes := h.scopes hj
    simp only [Store.enclose, Store.newScope, Array.getElem?_push, h.size_eq]
    split
    · exact .some ⟨rfl, List.forall_mem_nil _, .same hi⟩
    · generalize st.scopes[j]? = s at hscopes
      generalize st'.scopes[j]? = t at hscopes
      cases hscopes with
      | none => exact .none
      | some hst => exact .some (hst.mono hother)

/-- Stores with the same scopes agree if as many functions have been made and the same text has been
written. -/
lemma of_scopes_eq (h : st.Agrees V I st') {st₁ st₁' : Store} (hleft : st₁.scopes = st.scopes)
    (hright : st₁'.scopes = st'.scopes) (hclosures : st₁'.closures = st₁.closures)
    (houtput : st₁'.output = st₁.output) : st₁.Agrees V I st₁' where
  size_eq := by rw [hleft, hright, h.size_eq]
  closures_eq := hclosures
  output_eq := houtput
  later hle := h.later (hleft ▸ hle)
  scopes {j} hj := by
    have hscopes := h.scopes hj
    rw [hleft, hright]
    generalize st.scopes[j]? = s at hscopes
    generalize st'.scopes[j]? = t at hscopes
    cases hscopes with
    | none => exact .none
    | some hst => exact .some (hst.mono fun _ _ _ hs => hright ▸ hs)

/-- A function is made in both stores. -/
lemma newClosure (h : st.Agrees V I st') (params : List String) (body : Block) (scope : ScopeId) :
    (st.newClosure params body scope).2.Agrees V I (st'.newClosure params body scope).2 :=
  h.of_scopes_eq rfl rfl (congrArg Nat.succ h.closures_eq) h.output_eq

/-- A line is written in both stores. -/
lemma write (h : st.Agrees V I st') (line : String) :
    (st.write line).Agrees V I (st'.write line) := by
  refine h.of_scopes_eq rfl rfl h.closures_eq ?_
  rw [Store.write, Store.write, h.output_eq]

/-! ### What is found -/

/-- What a scope itself binds under a name of the vocabulary is the same. -/
lemma bound (h : st.Agrees V I st') (hi : I i) {name : String} (hname : V.names name) :
    st'.bound i name = st.bound i name := by
  have hscopes := h.scopes hi
  rw [Store.bound, Store.bound]
  generalize st.scopes[i]? = s at hscopes
  generalize st'.scopes[i]? = t at hscopes
  cases hscopes with
  | none => rfl
  | some hst => exact hst.lookup hname

/-- **What is found under a name** of the vocabulary is the same, and clean. -/
theorem lookup (h : st.Agrees V I st') (hi : I i) {name : String} (hname : V.names name) :
    st'.lookup i name = st.lookup i name ∧ ∀ v ∈ st.lookup i name, v.Clean V I := by
  have nothing : ∀ v ∈ (none : Option Value), v.Clean V I := fun v hv => by cases hv
  induction i using Nat.strongRecOn with
  | _ i ih =>
    have hscopes := h.scopes hi
    rw [Store.lookup, Store.lookup]
    generalize st.scopes[i]? = s at hscopes
    generalize st'.scopes[i]? = t at hscopes
    cases hscopes with
    | none => exact ⟨rfl, nothing⟩
    | @some s t hst =>
      have hfound := hst.lookup hname
      obtain ⟨bs, o⟩ := s
      obtain ⟨bs', o'⟩ := t
      have houter := hst.outer
      dsimp only at hfound houter ⊢
      rw [hfound]
      cases hb : bs.lookup name with
      | some v =>
        refine ⟨rfl, fun w hw => ?_⟩
        cases hw
        exact hst.clean (name, v) (Assoc.mem_of_lookup hb) hname
      | none =>
        cases houter with
        | none => exact ⟨rfl, nothing⟩
        | @same o ho =>
          dsimp only
          split
          · exact ih _ ‹_› ho
          · exact ⟨rfl, nothing⟩
        | @blank o ho hblank =>
          have hnone : st'.lookup o name = none := by
            rw [Store.lookup, hblank]
            rfl
          dsimp only
          rw [hnone, ite_self]
          exact ⟨rfl, nothing⟩

/-- **What can be seen** under the names of the vocabulary is the same. -/
theorem visible (h : st.Agrees V I st') (hi : I i) :
    (st'.visible i).filter (V.names ·.1) = (st.visible i).filter (V.names ·.1) := by
  induction i using Nat.strongRecOn with
  | _ i ih =>
    have hscopes := h.scopes hi
    rw [Store.visible, Store.visible]
    generalize st.scopes[i]? = s at hscopes
    generalize st'.scopes[i]? = t at hscopes
    cases hscopes with
    | none => rfl
    | @some s t hst =>
      obtain ⟨bs, o⟩ := s
      obtain ⟨bs', o'⟩ := t
      have houter := hst.outer
      have hbindings := hst.bindings
      dsimp only at hbindings houter ⊢
      have putAll {acc acc' : List (String × Value)} (hacc : (acc.map Prod.fst).Pairwise (· < ·))
          (hacc' : (acc'.map Prod.fst).Pairwise (· < ·))
          (heq : acc'.filter (V.names ·.1) = acc.filter (V.names ·.1)) :
          (bs'.foldl (fun acc p => Assoc.putSorted p.1 p.2 acc) acc').filter (V.names ·.1) =
            (bs.foldl (fun acc p => Assoc.putSorted p.1 p.2 acc) acc).filter (V.names ·.1) := by
        rw [Assoc.filter_foldl_putSorted bs' hacc', Assoc.filter_foldl_putSorted bs hacc, heq,
          hbindings]
      cases houter with
      | none => exact putAll .nil .nil rfl
      | @same o ho =>
        dsimp only
        split
        · exact putAll (st.sorted_visible o) (st'.sorted_visible o) (ih o ‹_› ho)
        · exact putAll .nil .nil rfl
      | @blank o ho hblank =>
        have hnone : st'.visible o = [] := by
          rw [Store.visible, hblank]
          rfl
        dsimp only
        rw [hnone, ite_self]
        exact putAll .nil .nil rfl

end Store.Agrees

end

end QuoteLang
