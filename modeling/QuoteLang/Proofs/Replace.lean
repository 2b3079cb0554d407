import Mathlib.Tactic.Lemma
import QuoteLang.Expr.Replace

set_option relaxedAutoImplicit false
set_option autoImplicit false

/-!
# The replacing pass in two steps

The pass over a tree calls its function on the expressions that are handed over, one after the other
and in the order of the source, and then puts the answers in their places. The places depend on the
tree alone. So whatever effects the function has, the pass has the effects of calling it along a
list.

## Main definitions

* `Expr.handedOver`, `handedOverStmts`, … — the expressions that the pass hands over, in order.
* `Expr.fill`, `fillStmts`, … — puts answers in the places of the expressions handed over.

## Main results

* `mapM_append_bind` — calling a function along two lists one after the other.
* `Expr.replaceM_eq`, `Block.replaceM_eq` — the pass calls its function along the list of what is
  handed over, and fills in the answers.
-/

namespace QuoteLang

/-! ## What is handed over -/

mutual

/-- The expressions that the pass over an expression hands over, in the order of the source. -/
def Expr.handedOver : Expr → List Expr
  | .ident name => [.ident name]
  | .int n => [.int n]
  | .bool b => [.bool b]
  | .str text => [.str text]
  | .unary _ e => e.handedOver
  | .binary _ l r => l.handedOver ++ r.handedOver
  | .cond c yes none => c.handedOver ++ handedOverStmts yes
  | .cond c yes (some no) => c.handedOver ++ (handedOverStmts yes ++ handedOverStmts no)
  | .fnLit _ body => handedOverStmts body
  | .call callee args => [.call callee args]
  | .array items => handedOverExprs items
  | .hash entries => handedOverEntries entries
  | .index base position => base.handedOver ++ position.handedOver
  | .macroLit params body => [.macroLit params body]

/-- What the pass over a statement hands over. -/
def Stmt.handedOver : Stmt → List Expr
  | .letBind _ value => value.handedOver
  | .ret none => []
  | .ret (some value) => value.handedOver
  | .expr value => value.handedOver

/-- What the pass over statements hands over. -/
def handedOverStmts : List Stmt → List Expr
  | [] => []
  | s :: rest => s.handedOver ++ handedOverStmts rest

/-- What the pass over the expressions of a list hands over. -/
def handedOverExprs : List Expr → List Expr
  | [] => []
  | e :: rest => e.handedOver ++ handedOverExprs rest

/-- What the pass over the entries of a hash literal hands over. -/
def handedOverEntries : List (Expr × Expr) → List Expr
  | [] => []
  | (key, value) :: rest => key.handedOver ++ (value.handedOver ++ handedOverEntries rest)

end

/-- What statements hand over, statement by statement. -/
lemma handedOverStmts_eq (ss : List Stmt) : handedOverStmts ss = ss.flatMap Stmt.handedOver := by
  induction ss with
  | nil => rw [handedOverStmts, List.flatMap_nil]
  | cons s ss ih => rw [handedOverStmts, ih, List.flatMap_cons]

/-- What the expressions of a list hand over, one by one. -/
lemma handedOverExprs_eq (es : List Expr) : handedOverExprs es = es.flatMap Expr.handedOver := by
  induction es with
  | nil => rw [handedOverExprs, List.flatMap_nil]
  | cons e es ih => rw [handedOverExprs, ih, List.flatMap_cons]

/-- What entries hand over, entry by entry. -/
lemma handedOverEntries_eq (entries : List (Expr × Expr)) :
    handedOverEntries entries = entries.flatMap fun e => e.1.handedOver ++ e.2.handedOver := by
  induction entries with
  | nil => rw [handedOverEntries, List.flatMap_nil]
  | cons e entries ih => rw [handedOverEntries, ih, List.flatMap_cons, List.append_assoc]

/-! ## Filling in -/

mutual

/-- Puts answers in the places of what an expression hands over. What is left of the answers is
dropped, and where there are too few the expression stays as it is. -/
def Expr.fill : Expr → List Expr → Expr
  | .ident name, as => as.headD (.ident name)
  | .int n, as => as.headD (.int n)
  | .bool b, as => as.headD (.bool b)
  | .str text, as => as.headD (.str text)
  | .unary op e, as => .unary op (e.fill as)
  | .binary op l r, as =>
    let here := l.handedOver.length
    .binary op (l.fill (as.take here)) (r.fill (as.drop here))
  | .cond c yes none, as =>
    let here := c.handedOver.length
    .cond (c.fill (as.take here)) (fillStmts yes (as.drop here)) none
  | .cond c yes (some no), as =>
    let here := c.handedOver.length
    let next := (handedOverStmts yes).length
    .cond (c.fill (as.take here)) (fillStmts yes ((as.drop here).take next))
      (some (fillStmts no ((as.drop here).drop next)))
  | .fnLit params body, as => .fnLit params (fillStmts body as)
  | .call callee args, as => as.headD (.call callee args)
  | .array items, as => .array (fillExprs items as)
  | .hash entries, as => .hash (fillEntries entries as)
  | .index base position, as =>
    let here := base.handedOver.length
    .index (base.fill (as.take here)) (position.fill (as.drop here))
  | .macroLit params body, as => as.headD (.macroLit params body)

/-- Puts answers in the places of what a statement hands over. -/
def Stmt.fill : Stmt → List Expr → Stmt
  | .letBind name value, as => .letBind name (value.fill as)
  | .ret none, _ => .ret none
  | .ret (some value), as => .ret (some (value.fill as))
  | .expr value, as => .expr (value.fill as)

/-- Puts answers in the places of what statements hand over. -/
def fillStmts : List Stmt → List Expr → List Stmt
  | [], _ => []
  | s :: rest, as =>
    let here := s.handedOver.length
    s.fill (as.take here) :: fillStmts rest (as.drop here)

/-- Puts answers in the places of what the expressions of a list hand over. -/
def fillExprs : List Expr → List Expr → List Expr
  | [], _ => []
  | e :: rest, as =>
    let here := e.handedOver.length
    e.fill (as.take here) :: fillExprs rest (as.drop here)

/-- Puts answers in the places of what the entries of a hash literal hand over. -/
def fillEntries : List (Expr × Expr) → List Expr → List (Expr × Expr)
  | [], _ => []
  | (key, value) :: rest, as =>
    let here := key.handedOver.length
    let next := value.handedOver.length
    (key.fill (as.take here), value.fill ((as.drop here).take next)) ::
      fillEntries rest ((as.drop here).drop next)

end

/-! ## The pass -/

section

variable {m : Type → Type} [Monad m] [LawfulMonad m]

/-- Calling a function along two lists one after the other, where what follows takes the answers
apart again. -/
theorem mapM_append_bind {α β γ : Type} (f : α → m β) (xs ys : List α)
    (g : List β → List β → m γ) :
    ((xs ++ ys).mapM f >>= fun bs => g (bs.take xs.length) (bs.drop xs.length)) =
      (xs.mapM f >>= fun as => ys.mapM f >>= fun bs => g as bs) := by
  induction xs generalizing g with
  | nil => simp
  | cons x xs ih =>
    simp only [List.cons_append, List.mapM_cons, bind_assoc, pure_bind, List.length_cons,
      List.take_succ_cons, List.drop_succ_cons]
    congr 1
    funext a
    exact ih fun as bs => g (a :: as) bs

variable (f : Expr → m Expr)

/-- The pass over statements calls its function along a list if it does so for each statement. -/
lemma replaceStmtsM_eq {ss : List Stmt}
    (h : ∀ s ∈ ss, s.replaceM f = (s.handedOver.mapM f >>= fun as => pure (s.fill as))) :
    replaceStmtsM f ss = ((handedOverStmts ss).mapM f >>= fun as => pure (fillStmts ss as)) := by
  induction ss with
  | nil => simp [replaceStmtsM, handedOverStmts, fillStmts]
  | cons s ss ih =>
    rw [List.forall_mem_cons] at h
    rw [replaceStmtsM, h.1, ih h.2, handedOverStmts]
    simp only [bind_assoc, pure_bind, fillStmts]
    exact (mapM_append_bind f _ _ fun as bs => pure (s.fill as :: fillStmts ss bs)).symm

/-- The pass over a list calls its function along a list if it does so for each expression. -/
lemma replaceExprsM_eq {es : List Expr}
    (h : ∀ e ∈ es, e.replaceM f = (e.handedOver.mapM f >>= fun as => pure (e.fill as))) :
    replaceExprsM f es = ((handedOverExprs es).mapM f >>= fun as => pure (fillExprs es as)) := by
  induction es with
  | nil => simp [replaceExprsM, handedOverExprs, fillExprs]
  | cons e es ih =>
    rw [List.forall_mem_cons] at h
    rw [replaceExprsM, h.1, ih h.2, handedOverExprs]
    simp only [bind_assoc, pure_bind, fillExprs]
    exact (mapM_append_bind f _ _ fun as bs => pure (e.fill as :: fillExprs es bs)).symm

/-- The pass over entries calls its function along a list if it does so for each key and value. -/
lemma replaceEntriesM_eq {entries : List (Expr × Expr)}
    (h : ∀ e ∈ entries, e.1.replaceM f = (e.1.handedOver.mapM f >>= fun as => pure (e.1.fill as)) ∧
      e.2.replaceM f = (e.2.handedOver.mapM f >>= fun as => pure (e.2.fill as))) :
    replaceEntriesM f entries =
      ((handedOverEntries entries).mapM f >>= fun as => pure (fillEntries entries as)) := by
  induction entries with
  | nil => simp [replaceEntriesM, handedOverEntries, fillEntries]
  | cons entry entries ih =>
    obtain ⟨key, value⟩ := entry
    rw [List.forall_mem_cons] at h
    rw [replaceEntriesM, h.1.1, h.1.2, ih h.2, handedOverEntries]
    simp only [bind_assoc, pure_bind, fillEntries]
    refine .symm ((mapM_append_bind f _ _ fun as bs => pure ((key.fill as,
      value.fill (bs.take value.handedOver.length)) ::
        fillEntries entries (bs.drop value.handedOver.length))).trans ?_)
    congr 1
    funext as
    exact mapM_append_bind f _ _ fun bs cs =>
      pure ((key.fill as, value.fill bs) :: fillEntries entries cs)

/-- The pass over every expression and every statement calls its function along a list. -/
lemma replaceM_eq_aux :
    (∀ e : Expr, e.replaceM f = (e.handedOver.mapM f >>= fun as => pure (e.fill as))) ∧
      ∀ s : Stmt, s.replaceM f = (s.handedOver.mapM f >>= fun as => pure (s.fill as)) := by
  apply Expr.induction
  case ident | int | bool | str =>
    intro a
    simp [Expr.replaceM, Expr.handedOver, Expr.fill]
  case call | macroLit =>
    intros
    simp [Expr.replaceM, Expr.handedOver, Expr.fill]
  case unary =>
    intro op e ih
    simp [Expr.replaceM, Expr.handedOver, Expr.fill, ih]
  case binary =>
    intro op l r ihl ihr
    rw [Expr.replaceM, ihl, ihr, Expr.handedOver]
    simp only [bind_assoc, pure_bind, Expr.fill]
    exact (mapM_append_bind f _ _ fun as bs => pure (Expr.binary op (l.fill as) (r.fill bs))).symm
  case cond =>
    intro c yes no ihc ihyes ihno
    cases no with
    | none =>
      rw [Expr.replaceM, ihc, replaceStmtsM_eq f ihyes, Expr.handedOver]
      simp only [bind_assoc, pure_bind, Expr.fill]
      exact (mapM_append_bind f _ _ fun as bs =>
        pure (Expr.cond (c.fill as) (fillStmts yes bs) none)).symm
    | some no =>
      rw [Expr.replaceM, ihc, replaceStmtsM_eq f ihyes, replaceStmtsM_eq f (ihno no rfl),
        Expr.handedOver]
      simp only [bind_assoc, pure_bind, Expr.fill]
      refine .symm ((mapM_append_bind f _ _ fun as bs => pure (Expr.cond (c.fill as)
        (fillStmts yes (bs.take (handedOverStmts yes).length))
          (some (fillStmts no (bs.drop (handedOverStmts yes).length))))).trans ?_)
      congr 1
      funext as
      exact mapM_append_bind f _ _ fun bs cs =>
        pure (Expr.cond (c.fill as) (fillStmts yes bs) (some (fillStmts no cs)))
  case fnLit =>
    intro params body ih
    rw [Expr.replaceM, replaceStmtsM_eq f ih, Expr.handedOver]
    simp only [bind_assoc, pure_bind, Expr.fill]
  case array =>
    intro items ih
    rw [Expr.replaceM, replaceExprsM_eq f ih, Expr.handedOver]
    simp only [bind_assoc, pure_bind, Expr.fill]
  case hash =>
    intro entries ih
    rw [Expr.replaceM, replaceEntriesM_eq f ih, Expr.handedOver]
    simp only [bind_assoc, pure_bind, Expr.fill]
  case index =>
    intro base position ihb ihp
    rw [Expr.replaceM, ihb, ihp, Expr.handedOver]
    simp only [bind_assoc, pure_bind, Expr.fill]
    exact (mapM_append_bind f _ _ fun as bs =>
      pure (Expr.index (base.fill as) (position.fill bs))).symm
  case letBind =>
    intro name e ih
    simp [Stmt.replaceM, Stmt.handedOver, Stmt.fill, ih]
  case ret =>
    intro value ih
    cases value with
    | none => simp [Stmt.replaceM, Stmt.handedOver, Stmt.fill]
    | some e => simp [Stmt.replaceM, Stmt.handedOver, Stmt.fill, ih e rfl]
  case expr =>
    intro e ih
    simp [Stmt.replaceM, Stmt.handedOver, Stmt.fill, ih]

/-- **The pass over an expression** calls its function along the list of what is handed over and
fills in the answers. -/
theorem Expr.replaceM_eq (e : Expr) :
    e.replaceM f = (e.handedOver.mapM f >>= fun as => pure (e.fill as)) :=
  (replaceM_eq_aux f).1 e

/-- **The pass over a block** calls its function along the list of what is handed over and fills in
the answers. -/
theorem Block.replaceM_eq (block : Block) :
    Block.replaceM f block =
      ((handedOverStmts block).mapM f >>= fun as => pure (fillStmts block as)) :=
  replaceStmtsM_eq f fun s _ => (replaceM_eq_aux f).2 s

end

end QuoteLang
