import Mathlib.Data.List.Forall2
import QuoteLang.Store
import QuoteLang.Value.Printer

set_option relaxedAutoImplicit false
set_option autoImplicit false

/-!
# Twin stores

Two stores in which some scopes of the one correspond to scopes of the other. The numbers of
corresponding scopes may be different, and so may the numbers of functions; but whatever can be
reached from a scope looks the same as what can be reached from its partner. The scopes without a
partner are of no concern: what is left over from earlier runs, and what belongs to the other run
only.

## Main definitions

* `Pairing` — which scopes correspond, and which functions are the same on both sides.
* `Value.Alike` — two values differ in the numbers of scopes and functions at most.
* `WroteSame` — the same text is written between two stores as between two others.
* `EntriesAlike` — two lists have the same keys, in the same order, with values that are alike.
* `Twin` — two stores with a pairing under which their scopes are alike.
* `Twin.ofBlank` — two blank scopes are twins.
* `Twin.bind`, `Twin.newClosure`, `Twin.write`, `Twin.enclose` — what is done on both sides.
* `Twin.Leads` — one twin leads to another: pairs stay, and both sides write the same text.

## Main results

* `Value.Alike.type_eq`, `Value.Alike.render_eq` — values that are alike have the same type and are
  shown alike.
* `Twin.lookup`, `Twin.visible` — what is found in scopes that correspond is alike.
-/

namespace QuoteLang

/-! ## Values that are alike -/

/-- Which scopes of one store correspond to which of another, and which functions are the same. -/
structure Pairing where
  /-- A scope of the one store corresponds to a scope of the other. -/
  scopes : ScopeId → ScopeId → Prop
  /-- The functions with smaller numbers are the same on both sides. -/
  shared : Nat

/-- A pairing is continued by another: it has all its pairs, and shares the same functions. -/
structure Pairing.Continues (M N : Pairing) : Prop where
  /-- No pair is lost. -/
  scopes {i j : ScopeId} : M.scopes i j → N.scopes i j
  /-- The same functions are shared. -/
  shared : N.shared = M.shared

/-- Two functions are alike: they have the same parameters and the same body, and refer to scopes
that correspond. A function that is shared is alike to itself only. -/
structure Closure.Alike (M : Pairing) (c d : Closure) : Prop where
  /-- The parameters are the same. -/
  params : c.params = d.params
  /-- The body is the same. -/
  body : c.body = d.body
  /-- The scopes correspond. -/
  scope : M.scopes c.scope d.scope
  /-- A shared function has kept its number. -/
  id : c.id < M.shared → c.id = d.id

/-- Two values are alike: they differ in the numbers of scopes and functions at most. -/
inductive Value.Alike (M : Pairing) : Value → Value → Prop
  | int (n : Int64) : Alike M (.int n) (.int n)
  | bool (b : Bool) : Alike M (.bool b) (.bool b)
  | str (s : String) : Alike M (.str s) (.str s)
  | array {vs ws : List Value} (hlen : vs.length = ws.length)
      (h : ∀ p ∈ vs.zip ws, Alike M p.1 p.2) : Alike M (.array vs) (.array ws)
  | hash {ps qs : List (Key × Value)} (hkeys : ps.map Prod.fst = qs.map Prod.fst)
      (hnodup : (ps.map Prod.fst).Nodup) (h : ∀ p ∈ ps.zip qs, Alike M p.1.2 p.2.2) :
      Alike M (.hash ps) (.hash qs)
  | function {c d : Closure} (h : c.Alike M d) : Alike M (.function c) (.function d)
  | builtin (b : Builtin) : Alike M (.builtin b) (.builtin b)
  | macroFn {c d : Closure} (h : c.Alike M d) : Alike M (.macroFn c) (.macroFn d)
  | returned {v w : Value} (h : Alike M v w) : Alike M (.returned v) (.returned w)
  | error (message : String) : Alike M (.error message) (.error message)
  | quote (e : Expr) : Alike M (.quote e) (.quote e)
  | null : Alike M .null .null

/-- Two lists have the same keys, in the same order, with values that are alike. -/
def EntriesAlike {κ : Type} (M : Pairing) (ps qs : List (κ × Value)) : Prop :=
  List.Forall₂ (fun p q => p.1 = q.1 ∧ p.2.Alike M q.2) ps qs

section

variable {M N : Pairing}

namespace EntriesAlike

variable {κ : Type} {ps qs : List (κ × Value)}

/-- Lists that are alike have the same keys. -/
lemma keys_eq (h : EntriesAlike M ps qs) : ps.map Prod.fst = qs.map Prod.fst := by
  induction h with
  | nil => rfl
  | cons hp _ ih => rw [List.map_cons, List.map_cons, hp.1, ih]

/-- Lists are alike if their keys are the same and their values are alike, one by one. -/
lemma of_keys_eq (hkeys : ps.map Prod.fst = qs.map Prod.fst)
    (h : ∀ p ∈ ps.zip qs, p.1.2.Alike M p.2.2) : EntriesAlike M ps qs := by
  have hfirst : List.Forall₂ (fun p q => p.1 = q.1) ps qs := by
    rw [← List.forall₂_eq_eq_eq, List.forall₂_map_left_iff, List.forall₂_map_right_iff] at hkeys
    exact hkeys
  obtain ⟨hlen, hfirst⟩ := List.forall₂_iff_zip.mp hfirst
  exact List.forall₂_iff_zip.mpr ⟨hlen, fun hpq => ⟨hfirst hpq, h _ hpq⟩⟩

/-- The values of lists that are alike are alike, one by one. -/
lemma zip (h : EntriesAlike M ps qs) : ∀ p ∈ ps.zip qs, p.1.2.Alike M p.2.2 :=
  fun _ hp => ((List.forall₂_iff_zip.mp h).2 hp).2

/-- The same keys with values that are alike. -/
lemma of_values (keys : List κ) {vs ws : List Value} (h : List.Forall₂ (Value.Alike M) vs ws) :
    EntriesAlike M (keys.zip vs) (keys.zip ws) := by
  induction h generalizing keys with
  | nil =>
    rw [List.zip_nil_right]
    exact .nil
  | cons hvw _ ih =>
    cases keys with
    | nil => exact .nil
    | cons key keys => exact .cons ⟨rfl, hvw⟩ (ih keys)

variable [DecidableEq κ]

/-- What is found under a key is alike. -/
lemma lookup (h : EntriesAlike M ps qs) (key : κ) :
    Option.Rel (Value.Alike M) (ps.lookup key) (qs.lookup key) := by
  induction h with
  | nil => exact .none
  | @cons p q ps qs hp _ ih =>
    obtain ⟨k, v⟩ := p
    obtain ⟨l, w⟩ := q
    obtain ⟨rfl, hvw⟩ := hp
    rw [List.lookup_cons, List.lookup_cons]
    cases key == k with
    | true => exact .some hvw
    | false => exact ih

/-- Lists stay alike where values that are alike are put in under one key. -/
lemma put (h : EntriesAlike M ps qs) (key : κ) {v w : Value} (hvw : v.Alike M w) :
    EntriesAlike M (Assoc.put key v ps) (Assoc.put key w qs) := by
  induction h with
  | nil => exact .cons ⟨rfl, hvw⟩ .nil
  | @cons p q ps qs hp hrest ih =>
    obtain ⟨k, v'⟩ := p
    obtain ⟨l, w'⟩ := q
    obtain ⟨rfl, hp⟩ := hp
    rw [Assoc.put, Assoc.put]
    split
    · exact .cons ⟨rfl, hvw⟩ hrest
    · exact .cons ⟨rfl, hp⟩ ih

end EntriesAlike

/-- Sorted lists stay alike where values that are alike are put in under one name. -/
lemma EntriesAlike.putSorted {ps qs : List (String × Value)} (h : EntriesAlike M ps qs)
    (name : String) {v w : Value} (hvw : v.Alike M w) :
    EntriesAlike M (Assoc.putSorted name v ps) (Assoc.putSorted name w qs) := by
  induction h with
  | nil => exact .cons ⟨rfl, hvw⟩ .nil
  | @cons p q ps qs hp hrest ih =>
    obtain ⟨k, v'⟩ := p
    obtain ⟨l, w'⟩ := q
    obtain ⟨rfl, hp⟩ := hp
    rw [Assoc.putSorted, Assoc.putSorted]
    split
    · exact .cons ⟨rfl, hvw⟩ hrest
    split
    · exact .cons ⟨rfl, hvw⟩ (.cons ⟨rfl, hp⟩ hrest)
    · exact .cons ⟨rfl, hp⟩ ih

/-- Every member of a list stands beside one of another list, if that is as long. -/
lemma exists_mem_zip {α β : Type} {as : List α} {bs : List β} (hlen : as.length = bs.length)
    {a : α} (ha : a ∈ as) : ∃ b, (a, b) ∈ as.zip bs := by
  rw [← List.map_fst_zip (Nat.le_of_eq hlen)] at ha
  obtain ⟨⟨_, b⟩, hp, rfl⟩ := List.mem_map.mp ha
  exact ⟨b, hp⟩

namespace Value

/-- Arrays are alike exactly if their items are, one by one. -/
lemma alike_array_iff {vs ws : List Value} :
    (array vs).Alike M (array ws) ↔ List.Forall₂ (Alike M) vs ws := by
  rw [List.forall₂_iff_zip]
  constructor
  · rintro ⟨⟩
    rename_i hlen h
    exact ⟨hlen, fun hp => h _ hp⟩
  · rintro ⟨hlen, h⟩
    exact .array hlen fun p hp => h hp

/-- Hashes are alike exactly if their entries are, and no key comes twice. -/
lemma alike_hash_iff {ps qs : List (Key × Value)} :
    (hash ps).Alike M (hash qs) ↔ (ps.map Prod.fst).Nodup ∧ EntriesAlike M ps qs := by
  constructor
  · rintro ⟨⟩
    rename_i hnodup hkeys h
    exact ⟨hnodup, .of_keys_eq hkeys h⟩
  · rintro ⟨hnodup, h⟩
    exact .hash h.keys_eq hnodup h.zip

namespace Alike

variable {v w : Value}

/-- Values that are alike have the same type. -/
theorem type_eq (h : v.Alike M w) : v.type = w.type := by
  cases h <;> rfl

/-- Values that are alike are the same key, if they are keys. -/
lemma key?_eq (h : v.Alike M w) : v.key? = w.key? := by
  cases h <;> rfl

/-- Values that are alike are equally true. -/
lemma truthy_eq (h : v.Alike M w) : v.truthy = w.truthy := by
  cases h <;> rfl

/-- Values that are alike are both on their way out of a function, or neither is. -/
lemma isReturned_eq (h : v.Alike M w) : v.isReturned = w.isReturned := by
  cases h <;> rfl

/-- Values that are alike stay alike where one wrapping by `return` is undone. -/
lemma unwrapReturn (h : v.Alike M w) : v.unwrapReturn.Alike M w.unwrapReturn := by
  have hself := h
  cases h with
  | returned h => exact h
  | _ => exact hself

/-- Values stay alike where a pairing is continued. -/
lemma mono (hMN : M.Continues N) (h : v.Alike M w) : v.Alike N w := by
  have closure {c d : Closure} (h : c.Alike M d) : c.Alike N d :=
    ⟨h.params, h.body, hMN.scopes h.scope, fun hid => h.id (hMN.shared ▸ hid)⟩
  induction h with
  | int n => exact .int n
  | bool b => exact .bool b
  | str s => exact .str s
  | array hlen _ ih => exact .array hlen ih
  | hash hkeys hnodup _ ih => exact .hash hkeys hnodup ih
  | function h => exact .function (closure h)
  | builtin b => exact .builtin b
  | macroFn h => exact .macroFn (closure h)
  | returned _ ih => exact .returned ih
  | error message => exact .error message
  | quote e => exact .quote e
  | null => exact .null

/-- **Values that are alike are shown alike.** -/
theorem render_eq (h : v.Alike M w) : v.render = w.render := by
  have closure {c d : Closure} (h : c.Alike M d) (word : String) :
      c.render word = d.render word := by
    rw [Closure.render, Closure.render, h.params, h.body]
  induction h with
  | int | bool | str | builtin | error | quote | null => rfl
  | @array vs ws hlen _ ih =>
    have hitems : vs.map render = ws.map render := by
      rw [← List.forall₂_eq_eq_eq, List.forall₂_map_left_iff, List.forall₂_map_right_iff,
        List.forall₂_iff_zip]
      exact ⟨hlen, fun hp => ih _ hp⟩
    rw [render_array, render_array, hitems]
  | @hash ps qs hkeys hnodup h ih =>
    have hentries : (ps.map fun e => e.1.render ++ ": " ++ e.2.render) =
        qs.map fun e => e.1.render ++ ": " ++ e.2.render := by
      obtain ⟨hlen, hpairs⟩ := List.forall₂_iff_zip.mp (EntriesAlike.of_keys_eq hkeys h)
      rw [← List.forall₂_eq_eq_eq, List.forall₂_map_left_iff, List.forall₂_map_right_iff,
        List.forall₂_iff_zip]
      refine ⟨hlen, fun hp => ?_⟩
      rw [(hpairs hp).1, ih _ hp]
    rw [render_hash, render_hash, hentries]
  | function h | macroFn h => exact closure h _
  | returned _ ih => exact ih

end Alike

end Value

/-- Lists stay alike where a pairing is continued. -/
lemma EntriesAlike.mono {κ : Type} {ps qs : List (κ × Value)} (hMN : M.Continues N)
    (h : EntriesAlike M ps qs) : EntriesAlike N ps qs :=
  List.Forall₂.imp (fun _ _ hp => ⟨hp.1, hp.2.mono hMN⟩) h

/-- Lists that are alike are shown alike. -/
lemma EntriesAlike.render_eq {κ : Type} {ps qs : List (κ × Value)} (h : EntriesAlike M ps qs) :
    (ps.map fun p => (p.1, p.2.render)) = qs.map fun q => (q.1, q.2.render) := by
  rw [← List.forall₂_eq_eq_eq, List.forall₂_map_left_iff, List.forall₂_map_right_iff]
  exact List.Forall₂.imp (fun _ _ hp => Prod.ext hp.1 hp.2.render_eq) h

end

/-! ## Twins -/

/-- The same text is written between two stores as between two others. -/
def WroteSame (st st' other other' : Store) : Prop :=
  ∃ text, st'.output = st.output ++ text ∧ other'.output = other.output ++ text

/-- Nothing is written between a store and itself. -/
lemma WroteSame.refl (st other : Store) : WroteSame st st other other :=
  ⟨"", by simp, by simp⟩

/-- What is written one after the other adds up. -/
lemma WroteSame.trans {st st' st'' other other' other'' : Store}
    (h : WroteSame st st' other other') (h' : WroteSame st' st'' other' other'') :
    WroteSame st st'' other other'' := by
  obtain ⟨text, hst, hother⟩ := h
  obtain ⟨text', hst', hother'⟩ := h'
  exact ⟨text ++ text', by rw [hst', hst, String.append_assoc],
    by rw [hother', hother, String.append_assoc]⟩

/-- Two scopes that correspond are alike: they bind the same names to values that are alike, and
have outer scopes that are older and correspond, if they have any. -/
structure Scope.Alike (M : Pairing) (i j : ScopeId) (s t : Scope) : Prop where
  /-- The bindings are alike. -/
  bindings : EntriesAlike M s.bindings t.bindings
  /-- The outer scopes correspond. -/
  outer : Option.Rel (fun o o' => M.scopes o o' ∧ o < i ∧ o' < j) s.outer t.outer

/-- Two stores with a pairing under which the scopes that correspond are alike. -/
structure Twin extends Pairing where
  /-- The one store. -/
  left : Store
  /-- The other store. -/
  right : Store
  /-- Scopes that correspond are alike. -/
  alike {i j : ScopeId} : scopes i j → ∃ s t, left.scopes[i]? = some s ∧
    right.scopes[j]? = some t ∧ s.Alike toPairing i j t
  /-- A scope corresponds to one scope at most, on either side. -/
  unique {i j i' j' : ScopeId} : scopes i j → scopes i' j' → (i = i' ↔ j = j')
  /-- The functions that are shared have been made. -/
  shared_le : shared ≤ left.closures

/-- Scopes stay alike where a pairing is continued. -/
lemma Scope.Alike.mono {M N : Pairing} {i j : ScopeId} {s t : Scope} (hMN : M.Continues N)
    (h : s.Alike M i j t) : s.Alike N i j t := by
  obtain ⟨bindings, outer⟩ := s
  obtain ⟨bindings', outer'⟩ := t
  refine ⟨h.bindings.mono hMN, ?_⟩
  cases h.outer with
  | none => exact .none
  | some ho => exact .some ⟨hMN.scopes ho.1, ho.2⟩

namespace Twin

variable {i j : ScopeId}

/-- Scopes with a partner have been made. -/
lemma lt_size (T : Twin) (h : T.scopes i j) :
    i < T.left.scopes.size ∧ j < T.right.scopes.size := by
  obtain ⟨s, t, hs, ht, -⟩ := T.alike h
  exact ⟨(Array.getElem?_eq_some_iff.mp hs).1, (Array.getElem?_eq_some_iff.mp ht).1⟩

/-- Two scopes that bind nothing and have no outer scope correspond in a twin of their stores, and
no others do. No functions are shared. -/
def ofBlank {st st' : Store} (hi : st.scopes[i]? = some ⟨[], none⟩)
    (hj : st'.scopes[j]? = some ⟨[], none⟩) : Twin where
  scopes a b := a = i ∧ b = j
  shared := 0
  left := st
  right := st'
  alike := by
    rintro _ _ ⟨rfl, rfl⟩
    exact ⟨_, _, hi, hj, .nil, .none⟩
  unique := by
    rintro _ _ _ _ ⟨rfl, rfl⟩ ⟨rfl, rfl⟩
    exact iff_of_true rfl rfl
  shared_le := Nat.zero_le _

/-! ### What is done on both sides -/

/-- A line is written on both sides. -/
def write (T : Twin) (line : String) : Twin :=
  { T with
    left := T.left.write line
    right := T.right.write line
    alike := T.alike
    shared_le := T.shared_le }

/-- A function is made on both sides. It is not shared. -/
def newClosure (T : Twin) (params : List String) (body : Block) (i j : ScopeId) : Twin :=
  { T with
    left := (T.left.newClosure params body i).2
    right := (T.right.newClosure params body j).2
    alike := T.alike
    shared_le := Nat.le_succ_of_le T.shared_le }

/-- A name is bound in scopes that correspond, to values that are alike. -/
def bind (T : Twin) (hij : T.scopes i j) (name : String) {v w : Value}
    (hvw : v.Alike T.toPairing w) : Twin :=
  { T with
    left := T.left.bind i name v
    right := T.right.bind j name w
    alike := by
      intro i' j' h'
      obtain ⟨s, t, hs, ht, hst⟩ := T.alike h'
      simp only [Store.bind, Array.getElem?_modify, T.unique hij h', hs, ht]
      split
      · exact ⟨_, _, rfl, rfl, hst.bindings.put name hvw, hst.outer⟩
      · exact ⟨_, _, rfl, rfl, hst⟩
    shared_le := T.shared_le }

/-- Scopes are made on both sides inside of scopes that correspond, and correspond from then on. -/
def enclose (T : Twin) (hij : T.scopes i j) : Twin where
  scopes a b := T.scopes a b ∨ a = T.left.scopes.size ∧ b = T.right.scopes.size
  shared := T.shared
  left := (T.left.enclose i).2
  right := (T.right.enclose j).2
  alike := by
    have hcontinues : T.Continues
        ⟨fun a b => T.scopes a b ∨ a = T.left.scopes.size ∧ b = T.right.scopes.size, T.shared⟩ :=
      ⟨.inl, rfl⟩
    have hlt := T.lt_size hij
    rintro a b (hab | ⟨rfl, rfl⟩)
    · obtain ⟨s, t, hs, ht, hst⟩ := T.alike hab
      have hab := T.lt_size hab
      refine ⟨s, t, ?_, ?_, hst.mono hcontinues⟩
      · simp only [Store.enclose, Store.newScope, Array.getElem?_push, Nat.ne_of_lt hab.1, if_false,
          hs]
      · simp only [Store.enclose, Store.newScope, Array.getElem?_push, Nat.ne_of_lt hab.2, if_false,
          ht]
    · refine ⟨⟨[], some i⟩, ⟨[], some j⟩, ?_, ?_, .nil, .some ⟨.inl hij, hlt⟩⟩
      · simp only [Store.enclose, Store.newScope, Array.getElem?_push, if_true]
      · simp only [Store.enclose, Store.newScope, Array.getElem?_push, if_true]
  unique := by
    rintro a b a' b' (hab | ⟨rfl, rfl⟩) (hab' | ⟨rfl, rfl⟩)
    · exact T.unique hab hab'
    · have hlt := T.lt_size hab
      exact iff_of_false (Nat.ne_of_lt hlt.1) (Nat.ne_of_lt hlt.2)
    · have hlt := T.lt_size hab'
      exact iff_of_false (Nat.ne_of_gt hlt.1) (Nat.ne_of_gt hlt.2)
    · exact iff_of_true rfl rfl
  shared_le := T.shared_le

/-- The left store is exchanged for one in which the scopes with a partner are as they were. -/
def replaceLeft (T : Twin) (st : Store)
    (hscopes : ∀ {i j : ScopeId}, T.scopes i j → st.scopes[i]? = T.left.scopes[i]?)
    (hshared : T.shared ≤ st.closures) : Twin :=
  { T with
    left := st
    alike := fun h => hscopes h ▸ T.alike h
    shared_le := hshared }

/-! ### Leading from one twin to another -/

/-- One twin **leads** to another: pairs stay, new pairs are made of new scopes, and every new scope
on the left has a partner; the same functions are shared; and the same text is written on both
sides. -/
structure Leads (T T' : Twin) : Prop where
  /-- Pairs stay. -/
  scopes {i j : ScopeId} : T.scopes i j → T'.scopes i j
  /-- A new pair is made of new scopes. -/
  fresh {i j : ScopeId} : T'.scopes i j →
    T.scopes i j ∨ T.left.scopes.size ≤ i ∧ T.right.scopes.size ≤ j
  /-- Every new scope has a partner. -/
  covered {i : ScopeId} : T.left.scopes.size ≤ i → i < T'.left.scopes.size → ∃ j, T'.scopes i j
  /-- The same functions are shared. -/
  shared : T'.shared = T.shared
  /-- No scope is lost. -/
  size_le : T.left.scopes.size ≤ T'.left.scopes.size ∧ T.right.scopes.size ≤ T'.right.scopes.size
  /-- The same text is written. -/
  output : WroteSame T.left T'.left T.right T'.right

namespace Leads

variable {T T' T'' : Twin}

/-- A twin leads to one with the same pairs and the same numbers of scopes that has written
nothing. -/
lemma of_pairing_eq (hpairing : T'.toPairing = T.toPairing)
    (hleft : T'.left.scopes.size = T.left.scopes.size)
    (hright : T'.right.scopes.size = T.right.scopes.size)
    (houtput : WroteSame T.left T'.left T.right T'.right) : T.Leads T' where
  scopes h := hpairing ▸ h
  fresh h := .inl (hpairing ▸ h)
  covered hle hlt := absurd (hleft ▸ hlt) (Nat.not_lt_of_le hle)
  shared := hpairing ▸ rfl
  size_le := ⟨Nat.le_of_eq hleft.symm, Nat.le_of_eq hright.symm⟩
  output := houtput

/-- A twin leads to itself. -/
lemma refl (T : Twin) : T.Leads T :=
  of_pairing_eq rfl rfl rfl (.refl T.left T.right)

/-- Leading is transitive. -/
lemma trans (h : T.Leads T') (h' : T'.Leads T'') : T.Leads T'' where
  scopes hij := h'.scopes (h.scopes hij)
  fresh hij := by
    rcases h'.fresh hij with hij | hij
    · exact h.fresh hij
    · exact .inr ⟨Nat.le_trans h.size_le.1 hij.1, Nat.le_trans h.size_le.2 hij.2⟩
  covered {i} hle hlt := by
    rcases Nat.lt_or_ge i T'.left.scopes.size with hlt' | hle'
    · obtain ⟨j, hij⟩ := h.covered hle hlt'
      exact ⟨j, h'.scopes hij⟩
    · exact h'.covered hle' hlt
  shared := h'.shared.trans h.shared
  size_le := ⟨Nat.le_trans h.size_le.1 h'.size_le.1, Nat.le_trans h.size_le.2 h'.size_le.2⟩
  output := h.output.trans h'.output

/-- The pairing is continued. -/
lemma continues (h : T.Leads T') : T.Continues T'.toPairing :=
  ⟨h.scopes, h.shared⟩

/-- Writing a line on both sides. -/
lemma write (T : Twin) (line : String) : T.Leads (T.write line) :=
  of_pairing_eq rfl rfl rfl ⟨line ++ "\n", by simp [Twin.write, Store.write, String.append_assoc],
    by simp [Twin.write, Store.write, String.append_assoc]⟩

/-- Making a function on both sides. -/
lemma newClosure (T : Twin) (params : List String) (body : Block) (i j : ScopeId) :
    T.Leads (T.newClosure params body i j) :=
  of_pairing_eq rfl rfl rfl (refl T).output

/-- Binding a name on both sides. -/
lemma bind (hij : T.scopes i j) (name : String) {v w : Value} (hvw : v.Alike T.toPairing w) :
    T.Leads (T.bind hij name hvw) :=
  of_pairing_eq rfl (by simp [Twin.bind, Store.bind]) (by simp [Twin.bind, Store.bind])
    (refl T).output

/-- Making a scope on both sides. -/
lemma enclose (hij : T.scopes i j) : T.Leads (T.enclose hij) where
  scopes := .inl
  fresh h := h.imp_right fun h => ⟨Nat.le_of_eq h.1.symm, Nat.le_of_eq h.2.symm⟩
  covered hle hlt := by
    simp only [Twin.enclose, Store.enclose, Store.newScope, Array.size_push] at hlt
    exact ⟨_, .inr ⟨Nat.le_antisymm (Nat.le_of_lt_succ hlt) hle, rfl⟩⟩
  shared := rfl
  size_le := by simp [Twin.enclose, Store.enclose, Store.newScope]
  output := (refl T).output

end Leads

/-- Several names are bound in scopes that correspond, to values that are alike. -/
lemma exists_bindAll {T : Twin} (hij : T.scopes i j) {ps qs : List (String × Value)}
    (h : EntriesAlike T.toPairing ps qs) : ∃ T' : Twin, T.Leads T' ∧
      T'.left = T.left.bindAll i ps ∧ T'.right = T.right.bindAll j qs := by
  induction ps generalizing T qs with
  | nil =>
    cases h
    exact ⟨T, .refl T, rfl, rfl⟩
  | cons p ps ih =>
    obtain _ | ⟨hp, hrest⟩ := h
    rename_i q qs
    obtain ⟨name, v⟩ := p
    obtain ⟨name', w⟩ := q
    obtain ⟨rfl, hvw⟩ := hp
    have hij' : (T.bind hij name hvw).scopes i j := hij
    obtain ⟨T', hleads, hleft, hright⟩ := ih hij' hrest
    exact ⟨T', (Leads.bind hij name hvw).trans hleads, hleft, hright⟩

/-! ### What is found -/

/-- **What is found under a name** in scopes that correspond is alike. -/
theorem lookup (T : Twin) (hij : T.scopes i j) (name : String) :
    Option.Rel (Value.Alike T.toPairing) (T.left.lookup i name) (T.right.lookup j name) := by
  induction i using Nat.strongRecOn generalizing j with
  | _ i ih =>
    obtain ⟨⟨bs, o⟩, ⟨bs', o'⟩, hs, ht, hst⟩ := T.alike hij
    have hfound := hst.bindings.lookup name
    have houter := hst.outer
    dsimp only at hfound houter
    rw [Store.lookup, hs, Store.lookup, ht]
    dsimp only
    cases hb : bs.lookup name <;> cases hb' : bs'.lookup name <;> rw [hb, hb'] at hfound
    · cases houter with
      | none => exact .none
      | some ho =>
        dsimp only
        rw [if_pos ho.2.1, if_pos ho.2.2]
        exact ih _ ho.2.1 ho.1
    · cases hfound
    · cases hfound
    · exact hfound

/-- **What can be seen** from scopes that correspond is alike. -/
theorem visible (T : Twin) (hij : T.scopes i j) :
    EntriesAlike T.toPairing (T.left.visible i) (T.right.visible j) := by
  have putAll {ps qs : List (String × Value)} (h : EntriesAlike T.toPairing ps qs)
      {acc acc' : List (String × Value)} (hacc : EntriesAlike T.toPairing acc acc') :
      EntriesAlike T.toPairing (ps.foldl (fun acc p => Assoc.putSorted p.1 p.2 acc) acc)
        (qs.foldl (fun acc p => Assoc.putSorted p.1 p.2 acc) acc') := by
    induction h generalizing acc acc' with
    | nil => exact hacc
    | @cons p q ps qs hp _ ih =>
      rw [List.foldl_cons, List.foldl_cons, ← hp.1]
      exact ih (hacc.putSorted p.1 hp.2)
  induction i using Nat.strongRecOn generalizing j with
  | _ i ih =>
    obtain ⟨⟨bs, o⟩, ⟨bs', o'⟩, hs, ht, hst⟩ := T.alike hij
    have houter := hst.outer
    dsimp only at houter
    rw [Store.visible, hs, Store.visible, ht]
    refine putAll hst.bindings ?_
    cases houter with
    | none => exact .nil
    | some ho =>
      dsimp only
      rw [if_pos ho.2.1, if_pos ho.2.2]
      exact ih _ ho.2.1 ho.1

end Twin

end QuoteLang
