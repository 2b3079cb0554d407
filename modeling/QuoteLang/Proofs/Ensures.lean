import Mathlib.Tactic.Lemma
import QuoteLang.Eval

set_option relaxedAutoImplicit false
set_option autoImplicit false

/-!
# What runs ensure

Partial correctness of runs: what holds of the value and the store if a run ends with a value, and
what holds of the store if it ends with a fault. Nothing is said about runs that are too deep.

## Main definitions

* `Run.Ensures` — a run, started in a store, ensures a property of its values and one of the stores
  of its faults.
* `Run.Still` — a run changes nothing.

## Main results

* `Run.Ensures.bind`, `Run.Ensures.andThen` — two runs in sequence.
* `Run.Ensures.with_eq` — what a run ensures, together with the equation that it has ended so.
* `UnaryOp.still_apply`, `BinaryOp.still_apply`, `still_indexInto`, `still_nameValue` — operators,
  indexing and names change nothing.
* `Builtin.call_ensures`, `bodyValue_ensures` — calls of built-in functions, and bodies.
-/

namespace QuoteLang

namespace Run

variable {ε δ α β : Type} {st : Store} {ok : α → Store → Prop} {fault : Store → Prop}

/-- A run, started in a store, ensures a property of its value and the store after it, and another
of the store after a fault. -/
def Ensures (x : Run ε α) (st : Store) (ok : α → Store → Prop) (fault : Store → Prop) : Prop :=
  match x st with
  | .ok a st' => ok a st'
  | .fault _ st' => fault st'
  | .tooDeep => True

/-! ## Rules -/

/-- What a run ensures holds where it ends with a value. -/
lemma Ensures.of_ok {x : Run ε α} (h : x.Ensures st ok fault) {a : α} {st' : Store}
    (hx : x st = .ok a st') : ok a st' := by
  rw [Ensures, hx] at h
  exact h

/-- What a run ensures holds where it ends with a fault. -/
lemma Ensures.of_fault {x : Run ε α} (h : x.Ensures st ok fault) {e : ε} {st' : Store}
    (hx : x st = .fault e st') : fault st' := by
  rw [Ensures, hx] at h
  exact h

/-- A run ensures what holds however it ends. -/
lemma Ensures.intro {x : Run ε α} (hok : ∀ a st', x st = .ok a st' → ok a st')
    (hfault : ∀ e st', x st = .fault e st' → fault st') : x.Ensures st ok fault := by
  rw [Ensures]
  cases hx : x st with
  | ok a st' => exact hok a st' hx
  | fault e st' => exact hfault e st' hx
  | tooDeep => trivial

/-- A run ensures what follows from what it ensures. -/
lemma Ensures.mono {x : Run ε α} {ok' : α → Store → Prop} {fault' : Store → Prop}
    (h : x.Ensures st ok fault) (hok : ∀ a st', ok a st' → ok' a st')
    (hfault : ∀ st', fault st' → fault' st') : x.Ensures st ok' fault' :=
  .intro (fun a st' hx => hok a st' (h.of_ok hx)) fun _ st' hx => hfault st' (h.of_fault hx)

/-- A run ensures what follows of its value from what it ensures. -/
lemma Ensures.imp {x : Run ε α} {ok' : α → Store → Prop} (h : x.Ensures st ok fault)
    (hok : ∀ a st', ok a st' → ok' a st') : x.Ensures st ok' fault :=
  h.mono hok fun _ hfault => hfault

/-- What a run ensures, together with the equation that it has ended so. -/
theorem Ensures.with_eq {x : Run ε α} (h : x.Ensures st ok fault) :
    x.Ensures st (fun a st' => x st = .ok a st' ∧ ok a st') fault :=
  .intro (fun _ _ hx => ⟨hx, h.of_ok hx⟩) fun _ _ hx => h.of_fault hx

/-- The run that changes nothing ensures what holds of its value. -/
lemma Ensures.pure {a : α} (h : ok a st) : (Pure.pure a : Run ε α).Ensures st ok fault := h

/-- Asking for something in the store ensures what holds of the answer. -/
lemma Ensures.get {f : Store → α} (h : ok (f st) st) :
    (Run.get f : Run ε α).Ensures st ok fault := h

/-- Two runs in sequence: the second starts where the first has ended with a value. -/
theorem Ensures.bind {x : Run ε α} {f : α → Run ε β} {ok : β → Store → Prop}
    (h : x.Ensures st (fun a st' => (f a).Ensures st' ok fault) fault) :
    (x >>= f).Ensures st ok fault := by
  refine .intro (fun b st' hb => ?_) fun e st' he => ?_
  · rw [bind_eq_ok] at hb
    obtain ⟨a, st₁, hx, hf⟩ := hb
    exact (h.of_ok hx).of_ok hf
  · rw [bind_eq_fault] at he
    rcases he with hx | ⟨a, st₁, hx, hf⟩
    · exact h.of_fault hx
    · exact (h.of_ok hx).of_fault hf

/-- Two runs in sequence, where the second goes on from whatever the first ensures. -/
theorem Ensures.andThen {x : Run ε α} {f : α → Run ε β} {mid : α → Store → Prop}
    {ok : β → Store → Prop} (hx : x.Ensures st mid fault)
    (hf : ∀ a st', mid a st' → (f a).Ensures st' ok fault) : (x >>= f).Ensures st ok fault :=
  .bind (hx.imp hf)

/-- Going on after a fault ensures what holds of the fault as a value. -/
lemma Ensures.attempt {x : Run ε α} {ok : Except ε α → Store → Prop} {after : Store → Prop}
    (h : x.Ensures st (fun a st' => ok (.ok a) st') fun st' => ∀ e, ok (.error e) st') :
    (Run.attempt x : Run δ (Except ε α)).Ensures st ok after := by
  unfold Ensures Run.attempt
  cases hx : x st with
  | ok a st' => exact h.of_ok hx
  | fault e st' => exact h.of_fault hx e
  | tooDeep => trivial

/-- What a run ensures, where a fault is an error. -/
lemma Ensures.of_value? {x : Run Fault Value} {ok : Value → Store → Prop} {v : Value}
    {st' : Store} (h : x.Ensures st ok fault) (hv : (x st).value? = some (v, st')) :
    ok v st' ∨ v.isError = true ∧ fault st' := by
  cases hx : x st with
  | ok w st₁ =>
    rw [hx] at hv
    cases hv
    exact .inl (h.of_ok hx)
  | fault f st₁ =>
    rw [hx] at hv
    cases hv
    exact .inr ⟨rfl, h.of_fault hx⟩
  | tooDeep =>
    rw [hx] at hv
    cases hv

/-! ## Runs that change nothing -/

/-- A run changes nothing in the store. -/
def Still (x : Run ε α) : Prop :=
  ∀ st, x.Ensures st (fun _ st' => st' = st) fun st' => st' = st

/-- The run that changes nothing changes nothing. -/
lemma Still.pure (a : α) : (Pure.pure a : Run ε α).Still := fun _ => rfl

/-- A fault changes nothing. -/
lemma Still.raise (e : ε) : (Run.raise e : Run ε α).Still := fun _ => rfl

/-- Asking for something in the store changes nothing. -/
lemma Still.get (f : Store → α) : (Run.get f : Run ε α).Still := fun _ => rfl

/-- A run that changes nothing ensures what holds where it starts. -/
lemma Still.ensures {x : Run ε α} (h : x.Still) (hok : ∀ a, x st = .ok a st → ok a st)
    (hfault : fault st) : x.Ensures st ok fault := by
  refine .intro (fun a st' hx => ?_) fun e st' hx => ?_
  · obtain rfl := (h st).of_ok hx
    exact hok a hx
  · obtain rfl := (h st).of_fault hx
    exact hfault

/-- Two runs that change nothing change nothing in sequence. -/
lemma Still.bind {x : Run ε α} {f : α → Run ε β} (h : x.Still) (hf : ∀ a, (f a).Still) :
    (x >>= f).Still :=
  fun st => .bind (h.ensures (fun a _ => hf a st) rfl)

/-- Settling on a value changes nothing. -/
lemma Still.settle (v : Value) : (Run.settle v).Still := by
  cases v with
  | error message => exact .raise _
  | _ => exact .pure _

end Run

/-! ## Operators, indexing and names -/

open Run

/-- An operator before its operand changes nothing. -/
theorem UnaryOp.still_apply (op : UnaryOp) (v : Value) : (op.apply v).Still := by
  unfold UnaryOp.apply
  split
  · exact .pure _
  · exact .pure _
  · exact .pure _
  · exact .pure _
  · exact .raise _

/-- An operator between integers changes nothing. -/
lemma BinaryOp.still_applyInt (op : BinaryOp) (l r : Int64) : (op.applyInt l r).Still := by
  cases op
  case div =>
    rw [BinaryOp.applyInt]
    split
    · exact .raise _
    · exact .pure _
  all_goals exact .pure _

/-- An operator between its operands changes nothing. -/
theorem BinaryOp.still_apply (op : BinaryOp) (l r : Value) : (op.apply l r).Still := by
  unfold BinaryOp.apply
  split
  · exact BinaryOp.still_applyInt _ _ _
  · exact .pure _
  · exact .pure _
  · exact .pure _
  · split
    · exact .raise _
    · exact .raise _

/-- Indexing changes nothing. -/
theorem still_indexInto (base position : Value) : (indexInto base position).Still := by
  unfold indexInto
  split
  · exact .settle _
  · split
    · exact .settle _
    · exact .raise _
  · exact .raise _

/-- Asking for the value of a name changes nothing. -/
theorem still_nameValue (scope : ScopeId) (name : String) : (nameValue scope name).Still := by
  refine .bind (.get _) fun v => ?_
  split
  · exact .settle _
  · split
    · exact .pure _
    · exact .raise _

/-- Finding the syntax that stands for a value changes nothing. -/
lemma still_toSyntax (v : Value) : (toSyntax v).Still := by
  cases v
  case int | bool | str | quote => exact .pure _
  all_goals exact .raise _

/-- Asking for the items of an argument changes nothing. -/
lemma Builtin.still_itemsOf (b : Builtin) (v : Value) : (b.itemsOf v).Still := by
  cases v
  case array => exact .pure _
  all_goals exact .raise _

/-- Asking for a length changes nothing. -/
lemma Builtin.still_lengthOf (v : Value) : (Builtin.lengthOf v).Still := by
  cases v
  case str | array => exact .pure _
  all_goals exact .raise _

/-! ## Calls -/

/-- A built-in function changes nothing but that it may write a line. -/
theorem Builtin.call_ensures {b : Builtin} {args : List Value} {st : Store} {P : Store → Prop}
    (hst : P st) (hwrite : ∀ line, P (st.write line)) :
    (b.call args).Ensures st (fun _ => P) P := by
  have still {x : Run Fault Value} (h : x.Still) : x.Ensures st (fun _ => P) P :=
    h.ensures (fun _ _ => hst) hst
  unfold Builtin.call
  split
  · exact still (Builtin.still_lengthOf _)
  · exact still (.bind (Builtin.still_itemsOf _ _) fun _ => .pure _)
  · exact still (.bind (Builtin.still_itemsOf _ _) fun _ => .pure _)
  · exact still (.bind (Builtin.still_itemsOf _ _) fun _ => .pure _)
  · exact still (.bind (Builtin.still_itemsOf _ _) fun _ => .pure _)
  · exact .bind (hwrite _)
  · exact still (.raise _)

/-- The body of a function is evaluated in a new scope with the parameters bound in it, and a
`return` in it ends there. -/
theorem bodyValue_ensures {deeper : Deeper} {c : Closure} {args : List Value} {st : Store}
    {ok : Value → Store → Prop} {fault : Store → Prop}
    (h : (deeper c.body st.scopes.size).Ensures
      ((st.enclose c.scope).2.bindAll st.scopes.size (c.params.zip args))
      (fun v st' => (Run.settle v.unwrapReturn).Ensures st' ok fault) fault) :
    (bodyValue deeper c args).Ensures st ok fault :=
  .bind (.bind (.bind h))

/-- Where a block is a single expression, its value is that of the expression. -/
lemma evalStmts_expr (deeper : Deeper) (scope : ScopeId) (before : Value) (e : Expr) :
    evalStmts deeper scope before [.expr e] = e.evalWith deeper scope := by
  rw [evalStmts_cons, Stmt.evalWith]
  refine Eq.trans ?_ (bind_pure _)
  congr 1
  funext v
  split
  · rfl
  · rw [evalStmts]

end QuoteLang
