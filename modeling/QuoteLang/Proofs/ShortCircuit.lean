import QuoteLang.Proofs.Order
import QuoteLang.Proofs.Errors
import QuoteLang.Proofs.Writes

set_option relaxedAutoImplicit false
set_option autoImplicit false

/-!
# The first error ends the evaluation

An error is never the value of a part that is passed on: wherever one comes up, all that is around
it ends with it, however many calls are in between. Nothing is evaluated, bound or written after it.

## Main definitions

* `Value.Settled` — a value is no error.
* `Point.value?` — the value that the evaluation at a point ends with.

## Main results

* `gives_settled` — evaluation ends with an error as a fault only.
* `Tree.eval_of_reaches_error` — an error that evaluation comes to is what it ends with.
-/

namespace QuoteLang

open Run

/-! ## Values that are passed on -/

/-- A value is no error. -/
def Value.Settled (v : Value) : Prop := v.isError = false

/-- What has no error inside is no error. -/
lemma Value.NoError.settled {v : Value} (h : v.NoError) : v.Settled := h v (.self v)

/-- Settling on a value gives no error. -/
lemma settle_gives_settled (v : Value) : (Run.settle v).Gives Value.Settled := by
  cases v with
  | error message => exact .raise _
  | _ => exact .pure rfl

/-- Settling on a value that is no error gives that value. -/
lemma Value.Settled.settle {v : Value} (h : v.Settled) : Run.settle v = pure v := by
  cases v with
  | error message => cases h
  | _ => rfl

/-- Two runs in sequence give what the second gives, whatever the first has ended with. -/
lemma Run.Gives.after {ε α β : Type} {p : β → Prop} {x : Run ε α} {f : α → Run ε β}
    (h : ∀ a, (f a).Gives p) : (x >>= f).Gives p :=
  .bind (p := fun _ => True) (fun _ _ _ _ => trivial) fun a _ => h a

/-- An operator before its operand gives no error. -/
theorem UnaryOp.gives_settled (op : UnaryOp) (v : Value) : (op.apply v).Gives Value.Settled :=
  fun st w st' h => (UnaryOp.gives_apply Value.hereditary_noError op v st w st' h).settled

/-- An operator between its operands gives no error. -/
theorem BinaryOp.gives_settled (op : BinaryOp) (l r : Value) :
    (op.apply l r).Gives Value.Settled :=
  fun st w st' h => (BinaryOp.gives_apply Value.hereditary_noError op l r st w st' h).settled

/-- The value of a name is no error. -/
lemma nameValue_gives_settled (scope : ScopeId) (name : String) :
    (nameValue scope name).Gives Value.Settled := by
  refine .after fun o => ?_
  split
  · exact settle_gives_settled _
  · split
    · exact .pure rfl
    · exact .raise _

/-- Indexing gives no error. -/
lemma indexInto_gives_settled (base position : Value) :
    (indexInto base position).Gives Value.Settled := by
  unfold indexInto
  split
  · exact settle_gives_settled _
  · split
    · exact settle_gives_settled _
    · exact .raise _
  · exact .raise _

section

variable {deeper : Deeper}

/-- A call gives no error. -/
lemma applyWith_gives_settled (callee : Value) (args : List Value) :
    (applyWith deeper callee args).Gives Value.Settled := by
  unfold applyWith
  split
  · split
    · exact .after fun _ => .after fun _ => .after fun _ => settle_gives_settled _
    · exact .raise _
  · exact .after fun _ => settle_gives_settled _
  · exact .raise _

/-- Statements give no error if none of them does, and there is none before them. -/
lemma stmts_give_settled {ss : List Stmt} {scope : ScopeId}
    (hss : ∀ s ∈ ss, ∀ scope, (s.evalWith deeper scope).Gives Value.Settled) {before : Value}
    (hbefore : before.Settled) : (evalStmts deeper scope before ss).Gives Value.Settled := by
  induction ss generalizing before with
  | nil =>
    rw [evalStmts]
    exact .pure hbefore
  | cons s ss ih =>
    rw [List.forall_mem_cons] at hss
    rw [evalStmts]
    refine .bind (hss.1 scope) fun v hv => ?_
    split
    · exact .pure hv
    · exact ih hss.2 hv

/-- **The value of an expression or statement is no error**: an error ends the evaluation as a
fault. -/
theorem gives_settled :
    (∀ (e : Expr) (scope : ScopeId), (e.evalWith deeper scope).Gives Value.Settled) ∧
      ∀ (s : Stmt) (scope : ScopeId), (s.evalWith deeper scope).Gives Value.Settled := by
  apply Expr.induction
  case ident =>
    intro name scope
    rw [Expr.evalWith]
    exact nameValue_gives_settled scope name
  case int | bool | str =>
    intro a scope
    rw [Expr.evalWith]
    exact .pure rfl
  case unary =>
    intro op e _ scope
    rw [Expr.evalWith]
    exact .after fun v => UnaryOp.gives_settled op v
  case binary =>
    intro op l r _ _ scope
    rw [Expr.evalWith]
    exact .after fun v => .after fun w => BinaryOp.gives_settled op v w
  case cond =>
    intro c yes no _ ihyes ihno scope
    cases no with
    | none =>
      rw [Expr.evalWith]
      refine .after fun t => ?_
      split
      · exact stmts_give_settled ihyes rfl
      · exact .pure rfl
    | some no =>
      rw [Expr.evalWith]
      refine .after fun t => ?_
      split
      · exact stmts_give_settled ihyes rfl
      · exact stmts_give_settled (ihno no rfl) rfl
  case fnLit | macroLit =>
    intro params body _ scope
    rw [Expr.evalWith]
    exact .after fun c => .pure rfl
  case call =>
    intro f args _ _ scope
    rw [Expr.evalWith]
    split
    · unfold quoteCallWith
      split
      · exact .after fun e => .pure rfl
      · exact .raise _
    · exact .after fun v => .after fun vs => applyWith_gives_settled v vs
  case array =>
    intro items _ scope
    rw [Expr.evalWith]
    exact .after fun vs => .pure rfl
  case hash =>
    intro pairs _ scope
    rw [Expr.evalWith]
    exact .after fun entries => .pure rfl
  case index =>
    intro b p _ _ scope
    rw [Expr.evalWith]
    exact .after fun v => .after fun w => indexInto_gives_settled v w
  case letBind =>
    intro name e ih scope
    rw [Stmt.evalWith]
    exact .bind (ih scope) fun v hv => .after fun _ => .pure hv
  case ret =>
    intro value _ scope
    cases value with
    | none =>
      rw [Stmt.evalWith]
      exact .pure rfl
    | some e =>
      rw [Stmt.evalWith]
      exact .after fun v => .pure rfl
  case expr =>
    intro e ih scope
    rw [Stmt.evalWith]
    exact ih scope

end

/-! ## Errors -/

/-- A run whose values are no errors, and that ends with an error, has ended with a fault. -/
lemma Outcome.eq_fault_of_value? {o : Outcome Fault Value} {message : String} {st : Store}
    (h : o.value? = some (.error message, st)) (hok : ∀ v st', o = .ok v st' → v.Settled) :
    ∃ f : Fault, f.message = message ∧ o = .fault f st := by
  cases o with
  | ok v st' =>
    cases h
    cases hok _ _ rfl
  | fault f st' =>
    cases h
    exact ⟨f, rfl, rfl⟩
  | tooDeep => cases h

namespace Point

/-- The value that the evaluation at a point ends with, where a fault is an error. Lists of
expressions and of entries have no value. -/
def value? : Point → Option (Value × Store)
  | ⟨d, s, .expr e, st⟩ => (e.eval d s st).value?
  | ⟨d, s, .stmt stmt, st⟩ => (stmt.eval d s st).value?
  | ⟨d, s, .stmts before ss, st⟩ => (evalStmts (evalBlock d) s before ss st).value?
  | _ => none

/-- An evaluation of statements that does not begin after an error. -/
def AfterNoError (P : Point) : Prop :=
  ∀ before ss, P.node = .stmts before ss → before.Settled

/-- A part does not begin after an error. -/
lemma Part.afterNoError {P Q : Point} (h : P.Part Q) : Q.AfterNoError := by
  rintro before ss hnode
  rcases h with h | h
  · cases h <;> cases hnode
  · cases h with
    | next hs hv =>
      cases hnode
      exact gives_settled.2 _ _ _ _ _ hs
    | yes | no | body =>
      cases hnode
      rfl
    | _ => cases hnode

/-- What is reached does not begin after an error if the whole does not. -/
lemma Reaches.afterNoError {P Q : Point} (h : P.Reaches Q) (hP : P.AfterNoError) :
    Q.AfterNoError := by
  cases h with
  | refl => exact hP
  | tail _ hpart => exact hpart.afterNoError

/-- An evaluation that does not begin after an error ends with one as a fault only. -/
lemma AfterNoError.outcome {P : Point} (hP : P.AfterNoError) {message : String} {st' : Store}
    (herror : P.value? = some (.error message, st')) :
    ∃ f : Fault, f.message = message ∧ P.outcome = .fault f st' := by
  obtain ⟨d, s, node, st⟩ := P
  cases node with
  | expr e => exact Outcome.eq_fault_of_value? herror fun v st' h => gives_settled.1 e s _ _ _ h
  | stmt stmt =>
    exact Outcome.eq_fault_of_value? herror fun v st' h => gives_settled.2 stmt s _ _ _ h
  | stmts before ss =>
    refine Outcome.eq_fault_of_value? herror fun v st' h => ?_
    exact stmts_give_settled (fun stmt _ => gives_settled.2 stmt) (hP before ss rfl) _ _ _ h
  | exprs | entries | splices => cases herror

end Point

namespace Tree

/-- Nothing stands before the statements of a program or a block. -/
lemma afterNoError (t : Tree) (depth : Nat) (scope : ScopeId) (st : Store) :
    Point.AfterNoError ⟨depth, scope, t.node, st⟩ := by
  intro before ss hnode
  cases t <;> cases hnode <;> rfl

/-- A fault of the node that is evaluated is the fault of the part of a program. -/
lemma eval_of_fault (t : Tree) {depth : Nat} {scope : ScopeId} {st st' : Store} {f : Fault}
    (h : Point.outcome ⟨depth, scope, t.node, st⟩ = .fault f st') :
    t.eval depth scope st = .fault f st' := by
  cases t with
  | program p => exact bind_of_fault h
  | block | stmt | expr => exact h

/-- **Errors end what is around them**: if the evaluation of any part of a program comes to an
expression, a statement or a block that ends with an error, the whole ends with that error, with the
store as it was then, and comes to nothing after it.

**Proof sketch.** A value is never an error, so the error is a fault, and a fault of a part is the
fault of the whole. -/
theorem eval_of_reaches_error (t : Tree) {depth : Nat} {scope : ScopeId} {st st' : Store}
    {message : String} {Q : Point} (hreach : Point.Reaches ⟨depth, scope, t.node, st⟩ Q)
    (herror : Q.value? = some (.error message, st')) :
    (t.eval depth scope st).value? = some (.error message, st') ∧
      Point.EndsIn ⟨depth, scope, t.node, st⟩ Q := by
  have hafter := hreach.afterNoError (t.afterNoError depth scope st)
  obtain ⟨f, rfl, hfault⟩ := hafter.outcome herror
  obtain ⟨hwhole, hends⟩ := hreach.of_fault hfault
  rw [t.eval_of_fault hwhole]
  exact ⟨rfl, hends⟩

/-- The body of a function that writes its argument and then makes an array, of which the second
item fails. -/
def failingBody : Block :=
  [.expr (.call (.ident "puts") [.ident "x"]),
    .expr (.array [.int 1, .unary .neg (.bool true), .call (.ident "puts") [.int 2]])]

/-- A call of this function, before something else is written. -/
def failingCall : Program :=
  [.letBind "f" (.fnLit ["x"] failingBody), .expr (.call (.ident "f") [.int 0]),
    .expr (.call (.ident "puts") [.int 3])]

/-- The sign before a truth value ends the items of the array, the body of the function, and the
program. -/
theorem eval_of_reaches_error_call :
    ∃ d s st st',
      Point.Reaches ⟨2, 0, (program failingCall).node, Store.empty.newGlobal.2⟩
        ⟨d, s, .expr (.unary .neg (.bool true)), st⟩ ∧
      Point.value? ⟨d, s, .expr (.unary .neg (.bool true)), st⟩ =
        some (.error "unknown operator: -BOOLEAN", st') ∧
      st'.output = "0\n" ∧
      ((program failingCall).eval 2 0 Store.empty.newGlobal.2).value? =
        some (.error "unknown operator: -BOOLEAN", st') ∧
      Point.EndsIn ⟨2, 0, (program failingCall).node, Store.empty.newGlobal.2⟩
        ⟨d, s, .expr (.unary .neg (.bool true)), st⟩ := by
  let c : Closure := ⟨0, ["x"], failingBody, 0⟩
  let globals : Scope := ⟨[("f", .function c)], none⟩
  let bound : Store := ⟨#[globals], 1, ""⟩
  let called : Store := ⟨#[globals, ⟨[("x", .int 0)], some 0⟩], 1, ""⟩
  let written : Store := { called with output := "0\n" }
  have hlet : (Stmt.letBind "f" (.fnLit ["x"] failingBody)).eval 2 0 Store.empty.newGlobal.2 =
      .ok (.function c) bound := by with_unfolding_all rfl
  have hname : (Expr.ident "f").eval 2 0 bound = .ok (.function c) bound := by
    with_unfolding_all rfl
  have harg : evalExprs (evalBlock 2) 0 [.int 0] bound = .ok [.int 0] bound := by
    with_unfolding_all rfl
  have hputs : (Stmt.expr (.call (.ident "puts") [.ident "x"])).eval 1 1 called =
      .ok .null written := by with_unfolding_all rfl
  have hitem : (Expr.int 1).eval 1 1 written = .ok (.int 1) written := by with_unfolding_all rfl
  have hbody : Point.Reaches ⟨1, 1, .stmts .null failingBody, called⟩
      ⟨1, 1, .expr (.unary .neg (.bool true)), written⟩ :=
    .head (.inr (.next hputs rfl)) <| .head (.inr .first) <| .head (.inr .expr) <|
      .head (.inr .items) <| .head (.inr (.restExprs hitem)) <| .single (.inl .item)
  have hreach : Point.Reaches ⟨2, 0, (program failingCall).node, Store.empty.newGlobal.2⟩
      ⟨1, 1, .expr (.unary .neg (.bool true)), written⟩ :=
    .head (.inr (.next hlet rfl)) <| .head (.inr .first) <| .head (.inr .expr) <|
      .head (.inr (.body rfl hname harg rfl)) hbody
  have herror : Point.value? ⟨1, 1, .expr (.unary .neg (.bool true)), written⟩ =
      some (.error "unknown operator: -BOOLEAN", written) := by with_unfolding_all rfl
  exact ⟨1, 1, written, written, hreach, herror, rfl, eval_of_reaches_error _ hreach herror⟩

end Tree

end QuoteLang
