import Mathlib.Algebra.Group.Int.Defs
import Mathlib.Algebra.Group.Nat.Defs
import QuoteLang.Proofs.ShortCircuit

set_option relaxedAutoImplicit false
set_option autoImplicit false

/-!
# Integer arithmetic

Every operator reduces its value to 64 bits. As long as nothing is divided, it makes no difference
whether each value on the way is reduced or only the last one. A division asks for the values of its
operands, so these are reduced first; it fails if the reduced divisor is zero, and in no other case
does arithmetic fail.

## Main definitions

* `ArithOp`, `Arith` — trees of integer literals, signs and the four operators.
* `Arith.exact` — the integer that a tree stands for, however large.
* `reduced`, `Arith.value?` — reduction to 64 bits, and the integer that a tree stands for if only
  the operands of divisions are reduced.

## Main results

* `Arith.evalWith_toExpr` — evaluation reduces that integer once, at the end.
* `Arith.reachesZeroDivision_of_value?` — where there is no such integer, a division by zero is
  reached.
* `Arith.eval_exact` — the value of a tree, and when it fails.
-/

namespace QuoteLang

/-! ## Trees -/

/-- The operators of arithmetic. -/
inductive ArithOp
  | add
  | sub
  | mul
  | div
deriving DecidableEq

/-- A tree of integer literals, signs and operators. -/
inductive Arith
  /-- A literal. -/
  | int (n : Int64)
  /-- A sign before its operand. -/
  | neg (e : Arith)
  /-- An operator between its operands. -/
  | binary (op : ArithOp) (l r : Arith)

/-- The operator of an expression. -/
def ArithOp.toBinaryOp : ArithOp → BinaryOp
  | add => .add
  | sub => .sub
  | mul => .mul
  | div => .div

namespace Arith

/-- The expression that a tree is. -/
def toExpr : Arith → Expr
  | int n => .int n
  | neg e => .unary .neg e.toExpr
  | binary op l r => .binary op.toBinaryOp l.toExpr r.toExpr

/-- Whether something is divided in a tree. -/
def divides : Arith → Bool
  | int _ => false
  | neg e => e.divides
  | binary op l r => op == .div || l.divides || r.divides

end Arith

/-! ## Integers -/

/-- The value of an operator between integers of any size. Quotients are rounded toward zero. -/
def ArithOp.exact : ArithOp → Int → Int → Int
  | add, a, b => a + b
  | sub, a, b => a - b
  | mul, a, b => a * b
  | div, a, b => a.tdiv b

/-- The integer that a tree stands for, where nothing is ever reduced. -/
def Arith.exact : Arith → Int
  | int n => n.toInt
  | neg e => -e.exact
  | binary op l r => op.exact l.exact r.exact

/-- An integer reduced to 64 bits: the one from `-2 ^ 63` up to `2 ^ 63 - 1` that differs from it by
a multiple of `2 ^ 64`. -/
def reduced (a : Int) : Int := a.bmod (2 ^ 64)

/-- The value of an operator between integers that are not reduced yet. A division reduces its
operands, and has no value if the divisor becomes zero. -/
def ArithOp.value? : ArithOp → Int → Int → Option Int
  | div, a, b => if reduced b = 0 then none else some ((reduced a).tdiv (reduced b))
  | op, a, b => some (op.exact a b)

/-- The integer that a tree stands for, if only the operands of divisions are reduced. -/
def Arith.value? : Arith → Option Int
  | int n => some n.toInt
  | neg e => e.value?.map fun a => -a
  | binary op l r => do
    let a ← l.value?
    let b ← r.value?
    op.value? a b

/-- The exact value of an operator other than division is its value. -/
lemma ArithOp.value?_of_ne_div {op : ArithOp} (h : op ≠ .div) (a b : Int) :
    op.value? a b = some (op.exact a b) := by
  cases op <;> first | rfl | exact absurd rfl h

/-- **Without division the value of a tree is exact.** -/
theorem Arith.value?_of_not_divides {t : Arith} (h : t.divides = false) :
    t.value? = some t.exact := by
  induction t with
  | int n => rfl
  | neg e ih =>
    rw [value?, ih h]
    rfl
  | binary op l r ihl ihr =>
    simp only [divides, Bool.or_eq_false_iff, beq_eq_false_iff_ne] at h
    obtain ⟨⟨hop, hl⟩, hr⟩ := h
    rw [value?, ihl hl, ihr hr]
    exact op.value?_of_ne_div hop _ _

/-! ## Evaluation -/

/-- The run that ends with an integer reduced to 64 bits, or with the fault of a division by zero if
there is none. -/
def endWith : Option Int → Run Fault Value
  | some a => pure (.int (Int64.ofInt a))
  | none => Run.raise .divisionByZero

/-- An integer of 64 bits that stands for any integer is that integer reduced. -/
lemma toInt_ofInt_eq_reduced (a : Int) : (Int64.ofInt a).toInt = reduced a :=
  Int64.toInt_ofInt

/-- An integer of 64 bits is zero exactly if what it stands for is zero when it is reduced. -/
lemma ofInt_eq_zero_iff {a : Int} : Int64.ofInt a = 0 ↔ reduced a = 0 := by
  rw [← Int64.toInt_inj, toInt_ofInt_eq_reduced, Int64.toInt_zero]

/-- **Division** of integers of 64 bits is division of what they stand for, reduced before and
after. -/
theorem ofInt_div (a b : Int) :
    Int64.ofInt a / Int64.ofInt b = Int64.ofInt ((reduced a).tdiv (reduced b)) := by
  rw [← Int64.toInt_inj, Int64.toInt_div, toInt_ofInt_eq_reduced, toInt_ofInt_eq_reduced,
    toInt_ofInt_eq_reduced]
  rfl

/-- An operator between integers of 64 bits reduces the value that it has between the integers they
stand for. -/
lemma ArithOp.apply_ofInt (op : ArithOp) (a b : Int) :
    op.toBinaryOp.apply (.int (Int64.ofInt a)) (.int (Int64.ofInt b)) =
      endWith (op.value? a b) := by
  have hint : op.toBinaryOp.apply (.int (Int64.ofInt a)) (.int (Int64.ofInt b)) =
      op.toBinaryOp.applyInt (Int64.ofInt a) (Int64.ofInt b) := by
    rw [BinaryOp.apply]
  rw [hint]
  cases op with
  | add => simp [toBinaryOp, BinaryOp.applyInt, value?, exact, endWith, Int64.ofInt_add]
  | sub => simp [toBinaryOp, BinaryOp.applyInt, value?, exact, endWith, Int64.ofInt_sub]
  | mul => simp [toBinaryOp, BinaryOp.applyInt, value?, exact, endWith, Int64.ofInt_mul]
  | div =>
    rw [toBinaryOp, BinaryOp.applyInt, value?]
    by_cases hb : reduced b = 0
    · rw [if_pos hb, if_pos (ofInt_eq_zero_iff.mpr hb), endWith]
    · rw [if_neg hb, if_neg (mt ofInt_eq_zero_iff.mp hb), ofInt_div, endWith]

/-- **Arithmetic reduces once**: a tree evaluates to the integer it stands for, reduced to 64 bits
at the end. Nothing else happens, wherever it is evaluated.

**Proof sketch.** Induction over the tree. The integer of 64 bits that stands for a sum, a
difference, a product or a negative is that of the operands, so reducing them first makes no
difference. -/
theorem Arith.evalWith_toExpr (t : Arith) (deeper : Deeper) (scope : ScopeId) :
    t.toExpr.evalWith deeper scope = endWith t.value? := by
  induction t with
  | int n => rw [toExpr, Expr.evalWith, value?, endWith, Int64.ofInt_toInt]
  | neg e ih =>
    rw [toExpr, Expr.evalWith, ih, value?]
    cases e.value? with
    | none => rfl
    | some a =>
      rw [Option.map_some, endWith, endWith, pure_bind, UnaryOp.apply, Int64.ofInt_neg]
  | binary op l r ihl ihr =>
    rw [toExpr, Expr.evalWith, ihl, ihr, value?]
    cases l.value? with
    | none => rfl
    | some a =>
      rw [endWith, pure_bind]
      cases r.value? with
      | none => rfl
      | some b =>
        rw [endWith, pure_bind, ArithOp.apply_ofInt]
        rfl

namespace Arith

section

variable (t : Arith) (depth : Nat) (scope : ScopeId) (st : Store)

/-- Where a tree stands for an integer, evaluation ends with it, reduced to 64 bits. -/
lemma eval_of_value? {t : Arith} {a : Int} (h : t.value? = some a) :
    t.toExpr.eval depth scope st = .ok (.int (Int64.ofInt a)) st := by
  rw [Expr.eval, evalWith_toExpr, h]
  rfl

/-- Where a tree stands for no integer, evaluation ends with a division by zero. -/
lemma eval_of_value?_eq_none {t : Arith} (h : t.value? = none) :
    t.toExpr.eval depth scope st = .fault .divisionByZero st := by
  rw [Expr.eval, evalWith_toExpr, h]
  rfl

/-- An operator is applied to the values of its operands. -/
lemma eval_binary {op : ArithOp} {l r : Arith} {v w : Value}
    (hl : l.toExpr.eval depth scope st = .ok v st) (hr : r.toExpr.eval depth scope st = .ok w st) :
    (binary op l r).toExpr.eval depth scope st = op.toBinaryOp.apply v w st := by
  rw [Expr.eval, toExpr, Expr.evalWith]
  exact (Run.bind_of_ok hl).trans (Run.bind_of_ok hr)

/-- The evaluation of a tree **reaches a division by zero**: it comes to a division whose operands
have values, where the value of the divisor is zero. -/
def ReachesZeroDivision : Prop :=
  ∃ l r : Arith, Point.Reaches ⟨depth, scope, .expr t.toExpr, st⟩
      ⟨depth, scope, .expr (binary .div l r).toExpr, st⟩ ∧
    (∃ n, l.toExpr.eval depth scope st = .ok (.int n) st) ∧
    r.toExpr.eval depth scope st = .ok (.int 0) st

end

section

variable {depth : Nat} {scope : ScopeId} {st : Store}

/-- What is reached in a part of a tree is reached in the tree. -/
lemma ReachesZeroDivision.of_part {t e : Arith} (h : e.ReachesZeroDivision depth scope st)
    (hpart : Point.Part ⟨depth, scope, .expr t.toExpr, st⟩ ⟨depth, scope, .expr e.toExpr, st⟩) :
    t.ReachesZeroDivision depth scope st := by
  obtain ⟨l, r, hreach, hvalues⟩ := h
  exact ⟨l, r, .head hpart hreach, hvalues⟩

/-- **A tree that stands for no integer reaches a division by zero.** -/
theorem reachesZeroDivision_of_value? {t : Arith} (h : t.value? = none) :
    t.ReachesZeroDivision depth scope st := by
  induction t with
  | int n => cases h
  | neg e ih =>
    have he : e.value? = none := by simpa [value?] using h
    exact (ih he).of_part (.inl .unary)
  | binary op l r ihl ihr =>
    cases hl : l.value? with
    | none => exact (ihl hl).of_part (.inl .left)
    | some a =>
      have hleft := eval_of_value? depth scope st hl
      cases hr : r.value? with
      | none => exact (ihr hr).of_part (.inl (.right hleft))
      | some b =>
        -- Both operands have values, so it is the operator that has none.
        have hop : op.value? a b = none := by simpa [value?, hl, hr] using h
        obtain rfl : op = .div := by
          by_cases hdiv : op = .div
          · exact hdiv
          · simp [op.value?_of_ne_div hdiv] at hop
        have hzero : reduced b = 0 := by simpa [ArithOp.value?] using hop
        have hright := eval_of_value? depth scope st hr
        rw [ofInt_eq_zero_iff.mpr hzero] at hright
        exact ⟨l, r, .refl, ⟨_, hleft⟩, hright⟩

/-- A division by zero that is reached is what the evaluation ends with. -/
lemma ReachesZeroDivision.eval {t : Arith} (h : t.ReachesZeroDivision depth scope st) :
    (t.toExpr.eval depth scope st).value? = some (.error "division by zero", st) := by
  obtain ⟨l, r, hreach, ⟨n, hl⟩, hr⟩ := h
  have hfault : (binary .div l r).toExpr.eval depth scope st = .fault .divisionByZero st := by
    rw [eval_binary depth scope st hl hr]
    rfl
  have hvalue : Point.value? ⟨depth, scope, .expr (binary .div l r).toExpr, st⟩ =
      some (.error "division by zero", st) := by
    rw [Point.value?, hfault]
    rfl
  exact (Tree.eval_of_reaches_error (.expr t.toExpr) hreach hvalue).1

end

/-! ## Values and failures -/

/-- A division of integers of 64 bits, where the divisor is not zero, is the quotient rounded toward
zero. Only the quotient of the smallest integer and `-1` is too large, and is the smallest integer
again. -/
lemma div_eq (a b : Int64) :
    if a = Int64.minValue ∧ b = -1 then a / b = Int64.minValue
    else (a / b).toInt = a.toInt.tdiv b.toInt := by
  split
  · rename_i h
    obtain ⟨rfl, rfl⟩ := h
    decide
  · rename_i h
    by_cases ha : a = Int64.minValue
    · exact Int64.toInt_div_of_ne_right a b fun hb => h ⟨ha, hb⟩
    · exact Int64.toInt_div_of_ne_left a b ha

/-- **Arithmetic is exact up to the last reduction, and fails for zero only.** Whatever the tree,
the scope and the store, evaluation ends with an integer or with a division by zero, and leaves the
store as it was.

* Without division, the integer is the exact value of the tree, reduced once.
* In general, it is the value where only the operands of divisions have been reduced before.
* A quotient is the quotient of the values of the operands, rounded toward zero.
* Evaluation fails exactly if it comes to a division where the value of the divisor is zero.

**Proof sketch.** Evaluation is known from `evalWith_toExpr`. A division by zero that is reached is
what the whole ends with, and where a tree stands for no integer, one is reached. -/
theorem eval_exact (t : Arith) (depth : Nat) (scope : ScopeId) (st : Store) :
    ((∃ n, t.toExpr.eval depth scope st = .ok (.int n) st) ∨
        (t.toExpr.eval depth scope st).value? = some (.error "division by zero", st)) ∧
      (t.divides = false →
        ∃ n, t.toExpr.eval depth scope st = .ok (.int n) st ∧ n.toInt = reduced t.exact) ∧
      (∀ a, t.value? = some a →
        ∃ n, t.toExpr.eval depth scope st = .ok (.int n) st ∧ n.toInt = reduced a) ∧
      (∀ l r a b, t = binary .div l r → l.toExpr.eval depth scope st = .ok (.int a) st →
        r.toExpr.eval depth scope st = .ok (.int b) st → b ≠ 0 →
        ∃ q, t.toExpr.eval depth scope st = .ok (.int q) st ∧
          if a = Int64.minValue ∧ b = -1 then q = Int64.minValue
          else q.toInt = a.toInt.tdiv b.toInt) ∧
      ((t.toExpr.eval depth scope st).value? = some (.error "division by zero", st) ↔
        t.ReachesZeroDivision depth scope st) := by
  have hvalue {a : Int} (h : t.value? = some a) :
      ∃ n, t.toExpr.eval depth scope st = .ok (.int n) st ∧ n.toInt = reduced a :=
    ⟨_, eval_of_value? depth scope st h, toInt_ofInt_eq_reduced a⟩
  refine ⟨?_, fun h => hvalue (value?_of_not_divides h), fun a h => hvalue h, ?_, ?_, ?_⟩
  · cases h : t.value? with
    | some a => exact .inl ⟨_, eval_of_value? depth scope st h⟩
    | none =>
      right
      rw [eval_of_value?_eq_none depth scope st h]
      rfl
  · rintro l r a b rfl hl hr hb
    refine ⟨a / b, ?_, div_eq a b⟩
    rw [eval_binary depth scope st hl hr, ArithOp.toBinaryOp, BinaryOp.apply, BinaryOp.applyInt,
      if_neg hb]
    rfl
  · intro herror
    cases h : t.value? with
    | some a =>
      rw [eval_of_value? depth scope st h] at herror
      cases herror
    | none => exact reachesZeroDivision_of_value? h
  · exact ReachesZeroDivision.eval

/-- A quotient whose divisor is `2 ^ 64`, which is zero when it is reduced. -/
def vanishingDivisor : Arith :=
  .binary .div (.int 1) (.binary .mul (.int 4611686018427387904) (.int 4))

/-- The divisor is not zero before it is reduced, but the division fails. -/
theorem eval_exact_vanishingDivisor :
    (binary .mul (int 4611686018427387904) (int 4)).exact = 2 ^ 64 ∧
      vanishingDivisor.ReachesZeroDivision 0 0 Store.empty ∧
      (vanishingDivisor.toExpr.eval 0 0 Store.empty).value? =
        some (.error "division by zero", Store.empty) := by
  have hreach : vanishingDivisor.ReachesZeroDivision 0 0 Store.empty :=
    reachesZeroDivision_of_value? (by decide)
  exact ⟨by decide, hreach, (eval_exact vanishingDivisor 0 0 Store.empty).2.2.2.2.mpr hreach⟩

end Arith

end QuoteLang
