import QuoteLang.Store

set_option relaxedAutoImplicit false
set_option autoImplicit false

/-!
# Runs

Evaluation changes a store, and ends with a value, with a fault, or not at all. A fault ends the
whole run; what was bound and written before it stays.

How deep calls may be nested is bounded by a number given to the run. A run that would need more is
neither a value nor a fault but undecided, and a larger bound may decide it.

## Main definitions

* `Fault` — what can go wrong in a run, with the wording `Fault.message`.
* `Outcome` — a value or a fault with the store after it, or that the run was too deep.
* `Run` — computations that change a store, which are composed in sequence by `do`.
* `Run.raise`, `Run.get`, `Run.attempt`, `Run.settle` — the elementary runs.

## Main results

* `Run.bind_eq_iff`, `Run.bind_eq_ok`, `Run.bind_eq_fault` — how a sequence of two runs ends.
-/

namespace QuoteLang

/-! ## Faults -/

/-- What can go wrong in a run. -/
inductive Fault
  /-- A name that is not bound. -/
  | unbound (name : String)
  /-- A minus sign before something that is no integer. -/
  | negation (operand : ValueType)
  /-- An operator between values of different types that it does not take. -/
  | mismatch (op : BinaryOp) (left right : ValueType)
  /-- An operator between two values of a type that it does not take. -/
  | operator (op : BinaryOp) (operands : ValueType)
  /-- A division by zero. -/
  | divisionByZero
  /-- A call with the wrong number of arguments. -/
  | argumentCount (got want : Nat)
  /-- A call of something that is no function. -/
  | notCallable (callee : ValueType)
  /-- An argument of `len` that has no length. -/
  | noLength (argument : ValueType)
  /-- An argument of a built-in function that should be an array. -/
  | noArray (function : Builtin) (argument : ValueType)
  /-- A key of a hash that may not be one. -/
  | unhashable (key : ValueType)
  /-- Indexing into something that is no array or hash, or with something that is no integer. -/
  | notIndexable (base : ValueType)
  /-- An argument of `unquote` whose value is no piece of syntax. -/
  | notSyntax (value : ValueType)
  /-- An error that was met again as a value. -/
  | carried (message : String)

/-- The wording of a fault. -/
def Fault.message : Fault → String
  | unbound name => "identifier not found: " ++ name
  | negation operand => "unknown operator: -" ++ operand.name
  | mismatch op left right =>
    "type mismatch: " ++ left.name ++ " " ++ op.symbol ++ " " ++ right.name
  | operator op operands =>
    "unknown operator: " ++ operands.name ++ " " ++ op.symbol ++ " " ++ operands.name
  | divisionByZero => "division by zero"
  | argumentCount got want =>
    "wrong number of arguments. got=" ++ toString got ++ ", want=" ++ toString want
  | notCallable callee => "not a function: " ++ callee.name
  | noLength argument => "argument to `len` not supported, got " ++ argument.name
  | noArray function argument =>
    "argument to `" ++ function.name ++ "` must be ARRAY, got " ++ argument.name
  | unhashable key => "unusable as hash key: " ++ key.name
  | notIndexable base => "index operator not supported: " ++ base.name
  | notSyntax value => "unquote: cannot convert " ++ value.name ++ " to a syntax node"
  | carried message => message

/-! ## Outcomes -/

/-- How a run ends. -/
inductive Outcome (ε α : Type)
  /-- With a value. -/
  | ok (value : α) (store : Store)
  /-- With a fault. -/
  | fault (error : ε) (store : Store)
  /-- The calls were nested too deeply to tell. -/
  | tooDeep

/-- A computation that changes a store. -/
def Run (ε α : Type) : Type := Store → Outcome ε α

namespace Run

variable {ε δ α β : Type}

/-- The run that changes nothing and ends with `a`. -/
def pure (a : α) : Run ε α := fun st => .ok a st

/-- One run after the other. The second is left out if the first ends with a fault. -/
def bind (x : Run ε α) (f : α → Run ε β) : Run ε β := fun st =>
  match x st with
  | .ok a st' => f a st'
  | .fault e st' => .fault e st'
  | .tooDeep => .tooDeep

/-- Runs are composed in sequence. -/
instance : Monad (Run ε) where
  pure := Run.pure
  bind := Run.bind

/-- The run that changes nothing ends with its value in the store that it was given. -/
theorem pure_apply (a : α) (st : Store) : (Pure.pure a : Run ε α) st = .ok a st := rfl

/-- Composition in sequence obeys the laws of monads. -/
instance : LawfulMonad (Run ε) :=
  LawfulMonad.mk' (Run ε)
    (fun x => by
      funext st
      change Run.bind x (fun a => Run.pure a) st = x st
      unfold Run.bind Run.pure
      cases x st <;> rfl)
    (fun a f => rfl)
    (fun x f g => by
      funext st
      change Run.bind (Run.bind x f) g st = Run.bind x (fun a => Run.bind (f a) g) st
      unfold Run.bind
      cases x st <;> rfl)

/-- A sequence ends as the second run does after a value of the first, or as the first run does if
that is without a value. -/
theorem bind_eq_iff {x : Run ε α} {f : α → Run ε β} {st : Store} {o : Outcome ε β} :
    (x >>= f) st = o ↔ (∃ a st₁, x st = .ok a st₁ ∧ f a st₁ = o) ∨
      (∃ e st₁, x st = .fault e st₁ ∧ .fault e st₁ = o) ∨ x st = .tooDeep ∧ .tooDeep = o := by
  change Run.bind x f st = _ ↔ _
  unfold Run.bind
  cases x st <;> simp [and_assoc]

/-- A sequence ends with a value exactly if the first run does, and the second after it. -/
theorem bind_eq_ok {x : Run ε α} {f : α → Run ε β} {st st' : Store} {b : β} :
    (x >>= f) st = .ok b st' ↔ ∃ a st₁, x st = .ok a st₁ ∧ f a st₁ = .ok b st' := by
  simp [bind_eq_iff]

/-- A sequence ends with a fault exactly if the first run does, or the second after a value of the
first. -/
theorem bind_eq_fault {x : Run ε α} {f : α → Run ε β} {st st' : Store} {e : ε} :
    (x >>= f) st = .fault e st' ↔
      x st = .fault e st' ∨ ∃ a st₁, x st = .ok a st₁ ∧ f a st₁ = .fault e st' := by
  simp [bind_eq_iff, or_comm]

/-- The run that is too deep. -/
def tooDeep : Run ε α := fun _ => .tooDeep

/-- Ends with a fault. -/
def raise (e : ε) : Run ε α := fun st => .fault e st

/-- Asks for something in the store. -/
def get (f : Store → α) : Run ε α := fun st => .ok (f st) st

/-- Changes the store. -/
def update (f : Store → Store) : Run ε Unit := fun st => .ok () (f st)

/-- Makes something new in the store. -/
def make (f : Store → α × Store) : Run ε α := fun st => .ok (f st).1 (f st).2

/-- Goes on after a fault, which becomes part of the value. -/
def attempt (x : Run ε α) : Run δ (Except ε α) := fun st =>
  match x st with
  | .ok a st' => .ok (.ok a) st'
  | .fault e st' => .ok (.error e) st'
  | .tooDeep => .tooDeep

/-- Ends with a value, unless it is an error: then with the fault that the error stands for. -/
def settle : Value → Run Fault Value
  | .error message => raise (.carried message)
  | v => pure v

end Run

/-- The value that a run has ended with, where a fault is an error. -/
def Outcome.value? : Outcome Fault Value → Option (Value × Store)
  | .ok v st => some (v, st)
  | .fault f st => some (.error f.message, st)
  | .tooDeep => none

end QuoteLang
