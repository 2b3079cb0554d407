import QuoteLang.Expr

set_option relaxedAutoImplicit false
set_option autoImplicit false

/-!
# Equality of trees

A decision procedure for the equality of two trees.

## Main definitions

* `Expr.same`, `Stmt.same` — compare two trees part by part.

## Main results

* `Expr.same_iff`, `Stmt.same_iff` — the comparisons decide equality, so `Expr` and `Stmt` have
  decidable equality.
-/

namespace QuoteLang

/-! ## Comparing part by part -/

mutual

/-- Compares two expressions part by part. -/
def Expr.same : Expr → Expr → Bool
  | .ident a, .ident b => a == b
  | .int a, .int b => a == b
  | .bool a, .bool b => a == b
  | .str a, .str b => a == b
  | .unary o a, .unary p b => o == p && a.same b
  | .binary o a c, .binary p b d => o == p && a.same b && c.same d
  | .cond a c none, .cond b d none => a.same b && sameStmts c d
  | .cond a c (some e), .cond b d (some f) => a.same b && sameStmts c d && sameStmts e f
  | .fnLit a c, .fnLit b d => a == b && sameStmts c d
  | .call a c, .call b d => a.same b && sameExprs c d
  | .array a, .array b => sameExprs a b
  | .hash a, .hash b => sameEntries a b
  | .index a c, .index b d => a.same b && c.same d
  | .macroLit a c, .macroLit b d => a == b && sameStmts c d
  | _, _ => false

/-- Compares two statements part by part. -/
def Stmt.same : Stmt → Stmt → Bool
  | .letBind a c, .letBind b d => a == b && c.same d
  | .ret none, .ret none => true
  | .ret (some a), .ret (some b) => a.same b
  | .expr a, .expr b => a.same b
  | _, _ => false

/-- Compares two lists of statements. -/
def sameStmts : List Stmt → List Stmt → Bool
  | [], [] => true
  | a :: as, b :: bs => a.same b && sameStmts as bs
  | _, _ => false

/-- Compares two lists of expressions. -/
def sameExprs : List Expr → List Expr → Bool
  | [], [] => true
  | a :: as, b :: bs => a.same b && sameExprs as bs
  | _, _ => false

/-- Compares two lists of pairs of expressions. -/
def sameEntries : List (Expr × Expr) → List (Expr × Expr) → Bool
  | [], [] => true
  | (a, c) :: as, (b, d) :: bs => a.same b && c.same d && sameEntries as bs
  | _, _ => false

end

/-! ## The comparison decides equality -/

/-- The comparison of lists of statements decides equality if that of their members does. -/
theorem sameStmts_iff (as bs : List Stmt) (h : ∀ a ∈ as, ∀ b, a.same b = true ↔ a = b) :
    sameStmts as bs = true ↔ as = bs := by
  induction as generalizing bs with
  | nil => cases bs <;> simp [sameStmts]
  | cons a as ih =>
    cases bs with
    | nil => simp [sameStmts]
    | cons b bs =>
      simp [sameStmts, h a List.mem_cons_self, ih bs fun x hx => h x (List.mem_cons_of_mem _ hx)]

/-- The comparison of lists of expressions decides equality if that of their members does. -/
theorem sameExprs_iff (as bs : List Expr) (h : ∀ a ∈ as, ∀ b, a.same b = true ↔ a = b) :
    sameExprs as bs = true ↔ as = bs := by
  induction as generalizing bs with
  | nil => cases bs <;> simp [sameExprs]
  | cons a as ih =>
    cases bs with
    | nil => simp [sameExprs]
    | cons b bs =>
      simp [sameExprs, h a List.mem_cons_self, ih bs fun x hx => h x (List.mem_cons_of_mem _ hx)]

/-- The comparison of entries decides equality if that of the keys and values does. -/
theorem sameEntries_iff (as bs : List (Expr × Expr))
    (h : ∀ a ∈ as, (∀ b, a.1.same b = true ↔ a.1 = b) ∧ ∀ b, a.2.same b = true ↔ a.2 = b) :
    sameEntries as bs = true ↔ as = bs := by
  induction as generalizing bs with
  | nil => cases bs <;> simp [sameEntries]
  | cons a as ih =>
    obtain ⟨a, c⟩ := a
    cases bs with
    | nil => simp [sameEntries]
    | cons b bs =>
      obtain ⟨b, d⟩ := b
      have ha := h (a, c) List.mem_cons_self
      simp only at ha
      simp [sameEntries, ha.1, ha.2, ih bs fun x hx => h x (List.mem_cons_of_mem _ hx)]

/-- The comparisons of expressions and of statements decide equality.

**Proof sketch.** Induction over trees. Trees with different heads differ and are told apart by the
last clause of the comparison; for equal heads the hypotheses for the parts apply. -/
theorem same_iff_aux :
    (∀ a b : Expr, a.same b = true ↔ a = b) ∧ ∀ a b : Stmt, a.same b = true ↔ a = b := by
  apply Expr.induction (P := fun a => ∀ b, a.same b = true ↔ a = b)
    (Q := fun a => ∀ b, a.same b = true ↔ a = b)
  case ident | int | bool | str =>
    intro a b
    cases b <;> simp [Expr.same]
  case unary =>
    intro op a ih b
    cases b <;> simp [Expr.same, ih]
  case binary =>
    intro op l r ihl ihr b
    cases b <;> simp [Expr.same, ihl, ihr, and_assoc]
  case cond =>
    intro c yes no hc hyes hno b
    cases b with
    | cond d yes' no' =>
      cases no with
      | none => cases no' <;> simp [Expr.same, hc, sameStmts_iff _ _ hyes]
      | some no =>
        cases no' <;> simp [Expr.same, hc, sameStmts_iff _ _ hyes,
          sameStmts_iff _ _ (hno no rfl), and_assoc]
    | _ => cases no <;> simp [Expr.same]
  case fnLit | macroLit =>
    intro params body hbody b
    cases b <;> simp [Expr.same, sameStmts_iff _ _ hbody]
  case call =>
    intro f args hf hargs b
    cases b <;> simp [Expr.same, hf, sameExprs_iff _ _ hargs]
  case array =>
    intro items hitems b
    cases b <;> simp [Expr.same, sameExprs_iff _ _ hitems]
  case hash =>
    intro entries hentries b
    cases b <;> simp [Expr.same, sameEntries_iff _ _ hentries]
  case index =>
    intro base position hbase hposition b
    cases b <;> simp [Expr.same, hbase, hposition]
  case letBind =>
    intro name e he b
    cases b <;> simp [Stmt.same, he]
  case ret =>
    intro e he b
    cases b with
    | ret v =>
      cases e with
      | none => cases v <;> simp [Stmt.same]
      | some e => cases v <;> simp [Stmt.same, he e rfl]
    | _ => cases e <;> simp [Stmt.same]
  case expr =>
    intro e he b
    cases b <;> simp [Stmt.same, he]

/-- The comparison of expressions decides equality. -/
theorem Expr.same_iff {a b : Expr} : a.same b = true ↔ a = b :=
  same_iff_aux.1 a b

/-- The comparison of statements decides equality. -/
theorem Stmt.same_iff {a b : Stmt} : a.same b = true ↔ a = b :=
  same_iff_aux.2 a b

/-- Equality of expressions is decidable. -/
instance : DecidableEq Expr := fun _ _ => decidable_of_iff _ Expr.same_iff

/-- Equality of statements is decidable. -/
instance : DecidableEq Stmt := fun _ _ => decidable_of_iff _ Stmt.same_iff

end QuoteLang
