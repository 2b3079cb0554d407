import QuoteLang.Proofs.ByteOrder
import QuoteLang.Store

set_option relaxedAutoImplicit false
set_option autoImplicit false

/-!
# Chains of scopes

Scopes are made with or without an outer scope, and names are bound in them, in any order. What can
be seen from a scope depends on this history in a simple way: a name has the value that was bound
last in the nearest scope around that binds it. The lookup goes from the inside to the outside and
stops at the first scope that binds the name, and the list of all names is built from the outside to
the inside. Both find the same.

## Main definitions

* `History` — how scopes have been made and names bound in them.
* `History.outerOf`, `History.chain` — the scope around a scope, and all scopes around it.
* `History.latest`, `History.nearest` — the value that was bound last to a name, in a scope and in
  the nearest scope that binds it.
* `History.Sees` — what is bound in a scope is not hidden by a nearer scope.
* `Store.Records` — a store has the scopes of a history.

## Main results

* `History.records` — the store that a history leads to records it.
* `Store.Records.lookup`, `Store.Records.visible` — looking up a name finds the nearest value, and
  so does the list of all names, which is sorted.
* `History.nearest_bind_of_sees`, `History.nearest_bind_of_not_sees` — where a name that is bound
  can be seen.
* `History.lookup_nearest` — what can be seen from where, after any history.
-/

namespace QuoteLang

/-! ## Histories -/

/-- A **history** of scopes, by the number of scopes that have been made. Only scopes that have been
made are referred to. -/
inductive History : Nat → Type
  /-- Nothing has been made. -/
  | start : History 0
  /-- A scope without an outer scope is made. -/
  | newGlobal {n : Nat} (before : History n) : History (n + 1)
  /-- A scope is made inside another. -/
  | enclose {n : Nat} (before : History n) (outer : Fin n) : History (n + 1)
  /-- A name is bound in a scope. -/
  | bind {n : Nat} (before : History n) (scope : Fin n) (name : String) (value : Value) : History n

namespace History

/-- The store that a history leads to. -/
def store {n : Nat} : History n → Store
  | start => .empty
  | newGlobal before => before.store.newGlobal.2
  | enclose before outer => (before.store.enclose outer).2
  | bind before scope name value => before.store.bind scope name value

/-- The scope inside which a scope was made, if there is one. -/
def outerOf {n : Nat} : History n → Nat → Option Nat
  | start, _ => none
  | newGlobal before, e => before.outerOf e
  | @enclose n before outer, e => if e = n then some outer else before.outerOf e
  | bind before _ _ _, e => before.outerOf e

/-- The value that was bound last to a name in a scope, if there is one. -/
def latest {n : Nat} : History n → Nat → String → Option Value
  | start, _, _ => none
  | newGlobal before, e, name => before.latest e name
  | enclose before _, e, name => before.latest e name
  | bind before scope name' value, e, name =>
    if e = scope ∧ name = name' then some value else before.latest e name

/-- The chain of a scope: the scope itself and the scopes around it, the nearest first. -/
def chain {n : Nat} : History n → Nat → List Nat
  | start, e => [e]
  | newGlobal before, e => before.chain e
  | @enclose n before outer, e => if e = n then e :: before.chain outer else before.chain e
  | bind before _ _ _, e => before.chain e

/-- A scope **sees** another for a name if that one is the scope itself or around it, and no scope
that is nearer binds the name. -/
inductive Sees {n : Nat} (h : History n) (name : String) : Nat → Nat → Prop
  /-- A scope sees itself. -/
  | self (e : Nat) : h.Sees name e e
  /-- A scope that does not bind the name sees what its outer scope sees. -/
  | outer {d o e : Nat} (hnone : h.latest d name = none) (ho : h.outerOf d = some o)
      (hsees : h.Sees name o e) : h.Sees name d e

variable {n : Nat}

/-! ## Outer scopes -/

/-- Only scopes that have been made have outer scopes, and those are older. -/
lemma outerOf_lt (h : History n) {e o : Nat} (ho : h.outerOf e = some o) : o < e ∧ e < n := by
  induction h with
  | start => simp [outerOf] at ho
  | newGlobal before ih =>
    obtain ⟨hlt, hmade⟩ := ih ho
    exact ⟨hlt, by omega⟩
  | @enclose n before outer ih =>
    rw [outerOf] at ho
    split at ho
    · cases ho
      have := outer.isLt
      omega
    · obtain ⟨hlt, hmade⟩ := ih ho
      exact ⟨hlt, by omega⟩
  | bind before scope name value ih => exact ih ho

/-- Nothing is bound in what has not been made. -/
lemma latest_eq_none (h : History n) {e : Nat} (he : n ≤ e) (name : String) :
    h.latest e name = none := by
  induction h with
  | start => rfl
  | newGlobal before ih => exact ih (by omega)
  | enclose before outer ih => exact ih (by omega)
  | @bind n before scope name' value ih =>
    have := scope.isLt
    rw [latest, if_neg (by omega), ih he]

/-- **The chain** of a scope is the scope with the chain of its outer scope. -/
theorem chain_eq (h : History n) (e : Nat) :
    h.chain e = e :: ((h.outerOf e).map h.chain).getD [] := by
  induction h generalizing e with
  | start => rfl
  | newGlobal before ih => exact ih e
  | @enclose n before outer ih =>
    -- The new scope is on no chain but its own, since all outer scopes are older.
    have hold {o : Nat} (ho : o < n) : (before.enclose outer).chain o = before.chain o :=
      if_neg (by omega)
    rw [chain, outerOf]
    split
    · rw [Option.map_some, Option.getD_some, hold outer.isLt]
    · rw [ih]
      cases ho : before.outerOf e with
      | none => rfl
      | some o =>
        obtain ⟨hlt, hmade⟩ := before.outerOf_lt ho
        rw [Option.map_some, Option.map_some, hold (by omega)]
  | bind before scope name value ih => exact ih e

/-- What has not been made has no outer scope. -/
lemma outerOf_eq_none (h : History n) {e : Nat} (he : n ≤ e) : h.outerOf e = none := by
  cases ho : h.outerOf e with
  | none => rfl
  | some o =>
    have := (h.outerOf_lt ho).2
    omega

/-- The scopes around a scope are older. -/
lemma le_of_mem_chain (h : History n) {e s : Nat} (hs : s ∈ h.chain e) : s ≤ e := by
  induction e using Nat.strongRecOn with
  | _ e ih =>
    rw [chain_eq, List.mem_cons] at hs
    cases ho : h.outerOf e with
    | none =>
      rw [ho] at hs
      simpa using Nat.le_of_eq (hs.resolve_right List.not_mem_nil)
    | some o =>
      rw [ho] at hs
      have hlt := (h.outerOf_lt ho).1
      rcases hs with rfl | hs
      · exact Nat.le_refl s
      · exact Nat.le_of_lt (Nat.lt_of_le_of_lt (ih o hlt hs) hlt)

/-! ## The nearest value -/

/-- The value that was bound last to a name in the nearest scope that binds it. -/
def nearest (h : History n) (e : Nat) (name : String) : Option Value :=
  (h.chain e).findSome? fun s => h.latest s name

/-- The nearest value is in the scope itself, or else the nearest to its outer scope. -/
lemma nearest_eq (h : History n) (e : Nat) (name : String) :
    h.nearest e name = (h.latest e name).or ((h.outerOf e).bind fun o => h.nearest o name) := by
  rw [nearest, chain_eq, List.findSome?_cons]
  cases h.latest e name with
  | some v => rfl
  | none => cases h.outerOf e <;> rfl

/-- The value that is bound in a scope is the nearest to all scopes that see it. -/
theorem nearest_bind_of_sees {h : History n} {name : String} {d : Nat} {e : Fin n}
    (hsees : h.Sees name d e) (v : Value) : (h.bind e name v).nearest d name = some v := by
  generalize he : e.val = e' at hsees
  induction hsees with
  | self =>
    rw [nearest_eq, latest, if_pos ⟨he.symm, rfl⟩]
    rfl
  | @outer d o e' hnone ho _ ih =>
    rw [nearest_eq, latest]
    by_cases hsame : d = e
    · rw [if_pos ⟨hsame, rfl⟩]
      rfl
    · rw [if_neg (fun hboth => hsame hboth.1), hnone, Option.none_or, outerOf, ho, Option.bind_some,
        ih he]

/-- To all other scopes the nearest value stays the same. -/
theorem nearest_bind_of_not_sees {h : History n} {name : String} {d : Nat} {e : Fin n}
    (hnot : ¬ h.Sees name d e) (v : Value) :
    (h.bind e name v).nearest d name = h.nearest d name := by
  induction d using Nat.strongRecOn with
  | _ d ih =>
    have hne : d ≠ e := fun heq => hnot (heq ▸ .self d)
    rw [nearest_eq, nearest_eq h, latest, if_neg (fun hboth => hne hboth.1), outerOf]
    cases hlatest : h.latest d name with
    | some w => rfl
    | none =>
      cases ho : h.outerOf d with
      | none => rfl
      | some o =>
        rw [Option.bind_some, Option.bind_some,
          ih o (h.outerOf_lt ho).1 fun hsees => hnot (.outer hlatest ho hsees)]

/-- Nothing changes for other names. -/
lemma nearest_bind_of_ne (h : History n) {name other : String} (hne : other ≠ name) (d : Nat)
    (e : Fin n) (v : Value) : (h.bind e name v).nearest d other = h.nearest d other := by
  have hlatest (s : Nat) : (h.bind e name v).latest s other = h.latest s other :=
    if_neg fun hboth => hne hboth.2
  rw [nearest, nearest, chain]
  simp only [hlatest]

/-- **A scope sees** those on its chain for which all nearer ones do not bind the name. -/
theorem sees_iff {h : History n} {name : String} {d e : Nat} :
    h.Sees name d e ↔ ∃ nearer farther, h.chain d = nearer ++ e :: farther ∧
      ∀ s ∈ nearer, h.latest s name = none := by
  constructor
  · intro hsees
    induction hsees with
    | self e => exact ⟨[], _, h.chain_eq e, by simp⟩
    | @outer d o e hnone ho _ ih =>
      obtain ⟨nearer, farther, hchain, hnearer⟩ := ih
      refine ⟨d :: nearer, farther, ?_, List.forall_mem_cons.mpr ⟨hnone, hnearer⟩⟩
      rw [chain_eq, ho, Option.map_some, Option.getD_some, hchain, List.cons_append]
  · rintro ⟨nearer, farther, hchain, hnearer⟩
    induction nearer generalizing d with
    | nil =>
      rw [chain_eq, List.nil_append, List.cons.injEq] at hchain
      exact hchain.1 ▸ .self d
    | cons s nearer ih =>
      rw [chain_eq, List.cons_append, List.cons.injEq] at hchain
      obtain ⟨rfl, hrest⟩ := hchain
      obtain ⟨hnone, hnearer⟩ := List.forall_mem_cons.mp hnearer
      cases ho : h.outerOf d with
      | none =>
        rw [ho] at hrest
        simp at hrest
      | some o =>
        rw [ho] at hrest
        exact .outer hnone ho (ih hrest hnearer)

/-- The nearest value was bound last in a scope that is seen. -/
lemma nearest_eq_some_iff {h : History n} {d : Nat} {name : String} {v : Value} :
    h.nearest d name = some v ↔ ∃ e, h.Sees name d e ∧ h.latest e name = some v := by
  rw [nearest, List.findSome?_eq_some_iff]
  constructor
  · rintro ⟨nearer, e, farther, hchain, hv, hnearer⟩
    exact ⟨e, sees_iff.mpr ⟨nearer, farther, hchain, hnearer⟩, hv⟩
  · rintro ⟨e, hsees, hv⟩
    obtain ⟨nearer, farther, hchain, hnearer⟩ := sees_iff.mp hsees
    exact ⟨nearer, e, farther, hchain, hv, hnearer⟩

/-- What a scope sees is on its chain. -/
lemma Sees.mem_chain {h : History n} {name : String} {d e : Nat} (hsees : h.Sees name d e) :
    e ∈ h.chain d := by
  obtain ⟨nearer, farther, hchain, -⟩ := sees_iff.mp hsees
  simp [hchain]

/-- **Ancestors, siblings and other scopes without an outer scope** do not see a scope. -/
theorem not_sees {h : History n} {d e : Nat} (hne : d ≠ e)
    (hunrelated : d ∈ h.chain e ∨ h.outerOf d = h.outerOf e ∨ h.outerOf d = none) (name : String) :
    ¬ h.Sees name d e := by
  intro hsees
  cases hsees with
  | self => exact hne rfl
  | outer hnone ho hsees =>
    have hlt := (h.outerOf_lt ho).1
    have hle := h.le_of_mem_chain hsees.mem_chain
    rcases hunrelated with hmem | hsame | hglobal
    · have := h.le_of_mem_chain hmem
      omega
    · have := (h.outerOf_lt (hsame.symm.trans ho)).1
      omega
    · rw [hglobal] at ho
      cases ho

end History

/-! ## Stores -/

/-- A store **records** a history: it has the scopes that were made inside one another as the
history says, and each of them binds what was bound last in it, under each name once. -/
structure Store.Records {n : Nat} (st : Store) (h : History n) : Prop where
  /-- As many scopes have been made. -/
  size : st.scopes.size = n
  /-- Each scope is what has been made of it. -/
  scope {e : Nat} (he : e < n) : ∃ bindings, st.scopes[e]? = some ⟨bindings, h.outerOf e⟩ ∧
    (bindings.map Prod.fst).Nodup ∧ ∀ name, bindings.lookup name = h.latest e name

namespace Store.Records

variable {n : Nat} {st : Store} {h : History n}

/-- A scope that is made is recorded. -/
lemma newScope (hst : st.Records h) {outer : Option Nat} {h' : History (n + 1)}
    (houter : ∀ e, h'.outerOf e = if e = n then outer else h.outerOf e)
    (hlatest : ∀ e name, h'.latest e name = h.latest e name) :
    (st.newScope outer).2.Records h' where
  size := by rw [Store.newScope, Array.size_push, hst.size]
  scope {e} he := by
    rw [Store.newScope, Array.getElem?_push, hst.size, houter]
    by_cases hnew : e = n
    · rw [if_pos hnew, if_pos hnew]
      refine ⟨[], rfl, List.nodup_nil, fun name => ?_⟩
      rw [hlatest, h.latest_eq_none (by omega)]
      rfl
    · rw [if_neg hnew, if_neg hnew]
      obtain ⟨bindings, hscope, hnodup, hbindings⟩ := hst.scope (e := e) (by omega)
      exact ⟨bindings, hscope, hnodup, fun name => (hbindings name).trans (hlatest e name).symm⟩

/-- A name that is bound is recorded. -/
lemma bind (hst : st.Records h) (scope : Fin n) (name : String) (value : Value) :
    (st.bind scope name value).Records (h.bind scope name value) where
  size := by rw [Store.bind, Array.size_modify, hst.size]
  scope {e} he := by
    obtain ⟨bindings, hscope, hnodup, hbindings⟩ := hst.scope he
    rw [Store.bind, Array.getElem?_modify, hscope]
    by_cases hsame : scope = e
    · rw [if_pos hsame]
      refine ⟨_, rfl, Assoc.nodup_keys_put name value hnodup, fun other => ?_⟩
      rw [History.latest]
      by_cases hother : other = name
      · rw [if_pos ⟨hsame.symm, hother⟩, hother, Assoc.lookup_put_self]
      · rw [if_neg (fun hboth => hother hboth.2), Assoc.lookup_put_of_ne hother, hbindings]
    · rw [if_neg hsame]
      refine ⟨bindings, rfl, hnodup, fun other => ?_⟩
      rw [History.latest, if_neg (fun hboth => hsame hboth.1.symm), hbindings]

/-- **Looking up** a name in a store finds the nearest value of the history that it records. -/
theorem lookup (hst : st.Records h) {e : Nat} (he : e < n) (name : String) :
    st.lookup e name = h.nearest e name := by
  induction e using Nat.strongRecOn with
  | _ e ih =>
    obtain ⟨bindings, hscope, -, hbindings⟩ := hst.scope he
    rw [Store.lookup_eq hscope (fun o ho => (h.outerOf_lt ho).1), h.nearest_eq, hbindings]
    cases ho : h.outerOf e with
    | none => rfl
    | some o =>
      have hlt := (h.outerOf_lt ho).1
      rw [Option.bind_some, Option.bind_some, ih o hlt (by omega)]

/-- **The list of all names** in a store that records a history is sorted, and finds the nearest
values of the history. -/
theorem visible (hst : st.Records h) {e : Nat} (he : e < n) :
    ((st.visible e).map Prod.fst).Pairwise (· < ·) ∧
      ∀ name, (st.visible e).lookup name = h.nearest e name := by
  induction e using Nat.strongRecOn with
  | _ e ih =>
    obtain ⟨bindings, hscope, hnodup, hbindings⟩ := hst.scope he
    -- The names of this scope are put into the list that its outer scope has, if there is one.
    obtain ⟨around, heq, hsorted, hfound⟩ : ∃ around,
        st.visible e = bindings.foldl (fun acc p => Assoc.putSorted p.1 p.2 acc) around ∧
        (around.map Prod.fst).Pairwise (· < ·) ∧
        ∀ name, around.lookup name = (h.outerOf e).bind fun o => h.nearest o name := by
      rw [Store.visible, hscope]
      cases ho : h.outerOf e with
      | none => exact ⟨[], rfl, List.Pairwise.nil, fun name => rfl⟩
      | some o =>
        have hlt := (h.outerOf_lt ho).1
        obtain ⟨hsorted, hfound⟩ := ih o hlt (by omega)
        exact ⟨st.visible o, by simp only [hlt, if_true], hsorted, hfound⟩
    rw [heq]
    refine ⟨(Assoc.names_foldl_putSorted bindings around hsorted).1, fun name => ?_⟩
    rw [Assoc.lookup_foldl_putSorted hnodup, hbindings, hfound, ← h.nearest_eq]

end Store.Records

namespace History

variable {n : Nat}

/-- **The store that a history leads to records it.** -/
theorem records (h : History n) : h.store.Records h := by
  induction h with
  | start => exact ⟨rfl, fun he => absurd he (Nat.not_lt_zero _)⟩
  | @newGlobal n before ih =>
    have houter (e : Nat) :
        before.newGlobal.outerOf e = if e = n then none else before.outerOf e := by
      by_cases hnew : e = n
      · rw [if_pos hnew, outerOf, before.outerOf_eq_none (by omega)]
      · rw [if_neg hnew, outerOf]
    exact ih.newScope houter fun e name => rfl
  | enclose before outer ih => exact ih.newScope (fun e => rfl) fun e name => rfl
  | bind before scope name value ih => exact ih.bind scope name value

/-- **What can be seen from a scope**, after any history in which scopes were made and names bound.

* A scope that is made next gets the next number, and the chain of a scope is the scope with the
  chain of its outer scope.
* A name has the value that was bound last in the first scope of the chain that binds it, and no
  value if none does. In other words, it has the value that was bound last in a scope that is seen,
  whether the scope that sees it was made before that or after it.
* A name that is bound in a scope gets its value there and in those scopes inside it from which no
  nearer scope binds the name, although they were made before. Nothing changes for all other scopes,
  among them the scopes around it, those with the same outer scope and those without one, and for
  all other names.
* The list of all names is strictly sorted by the bytes of their encodings, has no name twice, and
  has those values that are found under the names. -/
theorem lookup_nearest (h : History n) :
    (h.store.newGlobal.1 = n ∧ ∀ outer, (h.store.enclose outer).1 = n) ∧
    (∀ e, h.chain e = e :: ((h.outerOf e).map h.chain).getD []) ∧
    (∀ (e : Fin n) (name : String),
      h.store.lookup e name = (h.chain e).findSome? fun s => h.latest s name) ∧
    (∀ (d : Fin n) (name : String) (v : Value),
      h.store.lookup d name = some v ↔ ∃ e, h.Sees name d e ∧ h.latest e name = some v) ∧
    (∀ name d e, h.Sees name d e ↔ ∃ nearer farther, h.chain d = nearer ++ e :: farther ∧
      ∀ s ∈ nearer, h.latest s name = none) ∧
    (∀ (d e : Fin n) (name : String) (v : Value),
      (h.Sees name d e → (h.store.bind e name v).lookup d name = some v) ∧
      (¬ h.Sees name d e → (h.store.bind e name v).lookup d name = h.store.lookup d name) ∧
      ∀ other, other ≠ name → (h.store.bind e name v).lookup d other = h.store.lookup d other) ∧
    (∀ d e : Fin n, d ≠ e →
      d.val ∈ h.chain e ∨ h.outerOf d = h.outerOf e ∨ h.outerOf d = none →
      ∀ name, ¬ h.Sees name d e) ∧
    ∀ e : Fin n, (((h.store.visible e).map Prod.fst).map utf8Bytes).Pairwise (· < ·) ∧
      ((h.store.visible e).map Prod.fst).Nodup ∧
      ∀ name v, (name, v) ∈ h.store.visible e ↔ h.store.lookup e name = some v := by
  have hst := h.records
  refine ⟨⟨hst.size, fun _ => hst.size⟩, h.chain_eq, fun e => hst.lookup e.isLt, fun d name v => ?_,
    fun _ _ _ => sees_iff, fun d e name v => ?_, fun d e hne => not_sees (Fin.val_ne_of_ne hne),
    fun e => ?_⟩
  · rw [hst.lookup d.isLt]
    exact nearest_eq_some_iff
  · have hafter (other : String) : (h.store.bind e name v).lookup d other =
        (h.bind e name v).nearest d other := (hst.bind e name v).lookup d.isLt other
    simp only [hafter, hst.lookup d.isLt]
    exact ⟨fun hsees => nearest_bind_of_sees hsees v, fun hnot => nearest_bind_of_not_sees hnot v,
      fun other hne => h.nearest_bind_of_ne hne d e v⟩
  · obtain ⟨hsorted, hfound⟩ := hst.visible e.isLt
    have hnodup : ((h.store.visible e).map Prod.fst).Nodup := by
      refine hsorted.imp fun {a b} hlt heq => ?_
      rw [heq] at hlt
      exact String.lt_irrefl b hlt
    refine ⟨List.pairwise_map.mpr (hsorted.imp utf8Bytes_lt_iff.mpr), hnodup, fun name v => ?_⟩
    rw [hst.lookup e.isLt, ← hfound]
    exact ⟨Assoc.lookup_of_mem hnodup, Assoc.mem_of_lookup⟩

/-- Two scopes inside a global one, in which a name is bound after they were made. The first of them
binds another name again. -/
def hidden : History 3 :=
  start.newGlobal.bind 0 "x" (.int 1) |>.enclose 0 |>.enclose 0 |>.bind 1 "x" (.int 10)
    |>.bind 0 "y" (.int 2)

/-- A name that is bound again hides the outer one in its scope, and not in the other. -/
theorem lookup_nearest_hidden :
    hidden.store.lookup 1 "x" = some (.int 10) ∧ hidden.store.lookup 2 "x" = some (.int 1) ∧
      hidden.store.lookup 1 "y" = some (.int 2) ∧
      (hidden.Sees "y" 2 0 ∧ (hidden.store.bind 0 "y" .null).lookup 2 "y" = some .null) ∧
      (¬ hidden.Sees "x" 1 0 ∧
        (hidden.store.bind 0 "x" .null).lookup 1 "x" = hidden.store.lookup 1 "x") ∧
      (2 ≠ 1 ∧ hidden.outerOf 2 = hidden.outerOf 1 ∧ ¬ hidden.Sees "x" 2 1) ∧
      ("x", .int 10) ∈ hidden.store.visible 1 := by
  obtain ⟨-, -, hlookup, -, -, hbind, hunseen, hvisible⟩ := lookup_nearest hidden
  have hx : hidden.store.lookup 1 "x" = some (.int 10) := hlookup 1 "x"
  have houter : hidden.Sees "y" 2 0 := .outer rfl rfl (.self 0)
  have hblocked : ¬ hidden.Sees "x" 1 0 := by
    intro h
    cases h with
    | outer hnone => cases hnone
  exact ⟨hx, hlookup 2 "x", hlookup 1 "y", ⟨houter, (hbind 2 0 "y" .null).1 houter⟩,
    ⟨hblocked, (hbind 1 0 "x" .null).2.1 hblocked⟩,
    ⟨by decide, rfl, hunseen 2 1 (by decide) (.inr (.inl rfl)) "x"⟩,
    ((hvisible 1).2.2 "x" (.int 10)).mpr hx⟩

end History

end QuoteLang
