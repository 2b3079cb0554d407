import QuoteLang.Proofs.ShortCircuit

set_option relaxedAutoImplicit false
set_option autoImplicit false

/-!
# What a `return` ends

A `return` that stands in the body of a function, or in blocks of choices that stand as statements
there, ends all of these blocks. Its value is the value of the call, and what is around the call
goes on from there. The same statements end a program with this value, and a block with the value on
its way out.

## Main definitions

* `Point.Enters` — from statements to the next one, and into the block of a choice among them.
* `Point.Returns` — the evaluation of statements ends with a value on its way out.
* `Block.ReachesReturn` — the evaluation of a block comes to a `return`.
* `Closure.Begins`, `Expr.Calls` — where a call begins with the body of its function.
* `Expr.GoesOn` — an expression has a value, and the statements after it go on from there.

## Main results

* `Point.Enters.returns`, `Point.Enters.endsIn` — a `return` ends the statements around it.
* `Block.ReachesReturn.unwinds` — a `return` ends the call, the program or the block around it.
-/

namespace QuoteLang

open Run

namespace Point

/-! ## Statements -/

/-- From statements the evaluation **enters** the first of them, and after one that does not return
the rest; from a choice that stands as a statement it enters one of its blocks. -/
inductive Enters : Point → Point → Prop
  /-- The first of some statements. -/
  | first {d : Nat} {s : ScopeId} {before : Value} {stmt : Stmt} {rest : List Stmt} {st : Store} :
      Enters ⟨d, s, .stmts before (stmt :: rest), st⟩ ⟨d, s, .stmt stmt, st⟩
  /-- The statements after one that does not return. -/
  | next {d : Nat} {s : ScopeId} {before v : Value} {stmt : Stmt} {rest : List Stmt}
      {st st₁ : Store} (hs : stmt.eval d s st = .ok v st₁) (hv : v.isReturned = false) :
      Enters ⟨d, s, .stmts before (stmt :: rest), st⟩ ⟨d, s, .stmts v rest, st₁⟩
  /-- The first block of a choice. -/
  | yes {d : Nat} {s : ScopeId} {c : Expr} {yes : List Stmt} {no : Option (List Stmt)}
      {st st₁ : Store} {t : Value} (hc : c.eval d s st = .ok t st₁) (ht : t.truthy = true) :
      Enters ⟨d, s, .stmt (.expr (.cond c yes no)), st⟩ ⟨d, s, .stmts .null yes, st₁⟩
  /-- The second block of a choice. -/
  | no {d : Nat} {s : ScopeId} {c : Expr} {yes no : List Stmt} {st st₁ : Store} {t : Value}
      (hc : c.eval d s st = .ok t st₁) (ht : t.truthy = false) :
      Enters ⟨d, s, .stmt (.expr (.cond c yes (some no))), st⟩ ⟨d, s, .stmts .null no, st₁⟩

/-- The evaluation of statements ends with a value on its way out of the function. -/
def Returns (v : Value) (st' : Store) : Point → Prop
  | ⟨d, s, .stmt stmt, st⟩ => stmt.eval d s st = .ok (.returned v) st'
  | ⟨d, s, .stmts before ss, st⟩ => evalStmts (evalBlock d) s before ss st = .ok (.returned v) st'
  | _ => False

section

variable {P Q : Point} {v : Value} {st' : Store}

/-- **A `return` ends the statements around it.** -/
theorem Enters.returns (h : P.Enters Q) (hQ : Q.Returns v st') : P.Returns v st' := by
  cases h with
  | first =>
    change evalStmts _ _ _ _ _ = _
    rw [evalStmts]
    exact bind_of_ok hQ
  | next hs hv =>
    change evalStmts _ _ _ _ _ = _
    rw [evalStmts]
    refine (bind_of_ok hs).trans ?_
    rw [if_neg (by simp [hv])]
    exact hQ
  | yes hc ht =>
    rename_i no _ _ _
    change Stmt.evalWith _ _ _ _ = _
    rw [Stmt.evalWith]
    cases no <;>
    · rw [Expr.evalWith]
      refine (bind_of_ok hc).trans ?_
      rw [if_pos ht]
      exact hQ
  | no hc ht =>
    change Stmt.evalWith _ _ _ _ = _
    rw [Stmt.evalWith, Expr.evalWith]
    refine (bind_of_ok hc).trans ?_
    rw [if_neg (by simp [ht])]
    exact hQ

/-- **Nothing comes after a `return`** among the statements around it. -/
theorem Enters.endsIn (h : P.Enters Q) (hQ : Q.Returns v st') : P.EndsIn Q := by
  cases h with
  | first =>
    refine .single ?_
    change Stmt.eval _ _ _ _ = _ at hQ
    rw [parts, hQ]
    rfl
  | next hs hv => exact .single (by simp [parts, hs, hv])
  | yes hc ht => exact .head rfl (.single (by simp [parts, hc, ht]))
  | no hc ht => exact .head rfl (.single (by simp [parts, hc, ht]))

/-- A `return` that is entered ends all statements around it, and nothing comes after it. -/
lemma returns_of_enters (h : Relation.ReflTransGen Enters P Q) (hQ : Q.Returns v st') :
    P.Returns v st' ∧ P.EndsIn Q := by
  induction h using Relation.ReflTransGen.head_induction_on with
  | refl => exact ⟨hQ, .refl⟩
  | head henters _ ih => exact ⟨henters.returns ih.1, (henters.endsIn ih.1).trans ih.2⟩

end

end Point

/-! ## Calls -/

/-- The evaluation of a block comes to a `return` that stands in it, or in blocks of choices that
stand as statements there. -/
def Block.ReachesReturn (depth : Nat) (body : Block) (scope : ScopeId) (st : Store) (e : Expr)
    (st₁ : Store) : Prop :=
  Relation.ReflTransGen Point.Enters ⟨depth, scope, .stmts .null body, st⟩
    ⟨depth, scope, .stmt (.ret (some e)), st₁⟩

/-- Where the body of a function begins when it is called. -/
structure Closure.Begins (c : Closure) (args : List Value) (called : Store) (scope : ScopeId)
    (st : Store) : Prop where
  /-- There is an argument for every parameter. -/
  length : args.length = c.params.length
  /-- The scope is a new one. -/
  scope : scope = called.scopes.size
  /-- The parameters are bound in it. -/
  store : st = (called.enclose c.scope).2.bindAll called.scopes.size (c.params.zip args)

/-- What a call applies: the function and the arguments, with the store after these have been
evaluated. -/
structure Expr.Calls (depth : Nat) (caller : ScopeId) (f : Expr) (es : List Expr) (before : Store)
    (c : Closure) (args : List Value) (called : Store) : Prop where
  /-- It is no quotation. -/
  noQuote : f.isQuoteName = false
  /-- The function and the arguments are evaluated in sequence. -/
  values : ∃ mid, f.eval depth caller before = .ok (.function c) mid ∧
    evalExprs (evalBlock depth) caller es mid = .ok args called

/-- An expression ends with a value, and the statements after it go on from there. -/
structure Expr.GoesOn (depth : Nat) (scope : ScopeId) (e : Expr) (before : Store) (v : Value)
    (after : Store) : Prop where
  /-- The value of the expression. -/
  value : e.eval depth scope before = .ok v after
  /-- The statements after the expression. -/
  stmts (w : Value) (rest : List Stmt) :
    evalStmts (evalBlock depth) scope w (.expr e :: rest) before =
      evalStmts (evalBlock depth) scope v rest after
  /-- The statements after a name has been bound to it. -/
  lets (w : Value) (name : String) (rest : List Stmt) :
    evalStmts (evalBlock depth) scope w (.letBind name e :: rest) before =
      evalStmts (evalBlock depth) scope v rest (after.bind scope name v)

/-- After an expression with a value that is not on its way out the statements go on. -/
lemma Expr.goesOn {depth : Nat} {scope : ScopeId} {e : Expr} {before after : Store} {v : Value}
    (h : e.eval depth scope before = .ok v after) (hv : v.isReturned = false) :
    Expr.GoesOn depth scope e before v after where
  value := h
  stmts w rest := by
    have hs : (Stmt.expr e).evalWith (evalBlock depth) scope before = .ok v after := by
      rw [Stmt.evalWith]
      exact h
    rw [evalStmts, bind_of_ok hs, if_neg (by simp [hv])]
  lets w name rest := by
    have hs : (Stmt.letBind name e).evalWith (evalBlock depth) scope before =
        .ok v (after.bind scope name v) := by
      rw [Stmt.evalWith]
      exact bind_of_ok h
    rw [evalStmts, bind_of_ok hs, if_neg (by simp [hv])]

namespace Block.ReachesReturn

section

variable {depth : Nat} {body : Block} {scope : ScopeId} {e : Expr} {st st₁ st₂ : Store} {v : Value}
  (hreach : ReachesReturn depth body scope st e st₁) (he : e.eval depth scope st₁ = .ok v st₂)

include hreach he

/-- A block ends with a `return` that it comes to. -/
lemma eval_block : Block.eval depth body scope st = .ok (.returned v) st₂ ∧
    Point.EndsIn ⟨depth, scope, .stmts .null body, st⟩ ⟨depth, scope, .expr e, st₁⟩ := by
  have hreturns : Point.Returns v st₂ ⟨depth, scope, .stmt (.ret (some e)), st₁⟩ := by
    change Stmt.evalWith _ _ _ _ = _
    rw [Stmt.evalWith]
    exact bind_of_ok he
  obtain ⟨hblock, hends⟩ := Point.returns_of_enters hreach hreturns
  exact ⟨hblock, hends.tail rfl⟩

/-- A value on its way out is unwrapped where the `return` ends. -/
lemma settle_unwrapReturn :
    (Block.eval depth body scope >>= fun w => settle w.unwrapReturn) st = .ok v st₂ := by
  refine (bind_of_ok (hreach.eval_block he).1).trans ?_
  have hsettled : v.Settled := gives_settled.1 e scope _ _ _ he
  rw [Value.unwrapReturn, hsettled.settle]
  rfl

/-- The call of a function has the value of a `return` that its body comes to. -/
lemma eval_apply {c : Closure} {args : List Value} {called : Store} (hbody : c.body = body)
    (hbegins : c.Begins args called scope st) :
    Value.apply (depth + 1) (.function c) args called = .ok v st₂ := by
  obtain ⟨hlen, rfl, rfl⟩ := hbegins
  subst hbody
  exact (applyWith_function hlen).trans (hreach.settle_unwrapReturn he)

/-- **A `return` ends the call around it**, or else the program or the block.

If the evaluation of a block comes to a `return` whose value is no wrapping, the block ends with
this value on its way out and a program with the value itself, both with the store after that value;
and so does the call of a function that has the block as its body. Nothing comes after the `return`
in the block or in the call, and what is around the call goes on with its value.

**Proof sketch.** Induction along the statements that lead to the `return`, from the last to the
first. Its value is no error, so it is settled on where it is unwrapped. -/
theorem unwinds (hv : v.isReturned = false) :
    Block.eval depth body scope st = .ok (.returned v) st₂ ∧
    Program.eval depth body scope st = .ok v st₂ ∧
    Point.EndsIn ⟨depth, scope, .stmts .null body, st⟩ ⟨depth, scope, .expr e, st₁⟩ ∧
    ∀ (c : Closure) (args : List Value) (called : Store), c.body = body →
      c.Begins args called scope st →
      Value.apply (depth + 1) (.function c) args called = .ok v st₂ ∧
      ∀ (caller : ScopeId) (f : Expr) (es : List Expr) (before : Store),
        Expr.Calls (depth + 1) caller f es before c args called →
        Expr.GoesOn (depth + 1) caller (.call f es) before v st₂ ∧
        Point.EndsIn ⟨depth + 1, caller, .expr (.call f es), before⟩
          ⟨depth, scope, .expr e, st₁⟩ := by
  obtain ⟨hblock, hends⟩ := hreach.eval_block he
  refine ⟨hblock, hreach.settle_unwrapReturn he, hends, fun c args called hbody hbegins => ?_⟩
  have happly := hreach.eval_apply he hbody hbegins
  refine ⟨happly, fun caller f es before hcalls => ?_⟩
  obtain ⟨hquote, mid, hf, hargs⟩ := hcalls
  constructor
  · refine Expr.goesOn ?_ hv
    rw [Expr.eval, Expr.evalWith, if_neg (by simp [hquote])]
    exact (bind_of_ok hf).trans ((bind_of_ok hargs).trans happly)
  · obtain ⟨hlen, rfl, rfl⟩ := hbegins
    subst hbody
    refine .head ?_ hends
    simp [Point.parts, hquote, hf, hargs, Point.bodies, hlen]

end

/-- A body with a `return` in a block inside another block, and something to write before and after
each of them. -/
def returnInBlocks : Block :=
  [.expr (.cond (.ident "x")
    [.expr (.call (.ident "puts") [.int 1]),
      .expr (.cond (.bool true)
        [.ret (some (.int 5)), .expr (.call (.ident "puts") [.int 2])] none),
      .expr (.call (.ident "puts") [.int 3])]
    none), .expr (.call (.ident "puts") [.int 4])]

/-- Of a call of a function with this body, only what stands before the `return` is written. -/
theorem unwinds_in_blocks :
    ∃ (c : Closure) (scope : ScopeId) (before st st₁ : Store),
      before.lookup 0 "f" = some (.function c) ∧ c.body = returnInBlocks ∧
      ReachesReturn 1 returnInBlocks scope st (.int 5) st₁ ∧
      (Expr.int 5).eval 1 scope st₁ = .ok (.int 5) st₁ ∧
      Block.eval 1 returnInBlocks scope st = .ok (.returned (.int 5)) st₁ ∧
      Program.eval 1 returnInBlocks scope st = .ok (.int 5) st₁ ∧
      Expr.GoesOn 2 0 (.call (.ident "f") [.bool true]) before (.int 5) st₁ ∧
      st₁.output = "1\n" := by
  let c : Closure := ⟨0, ["x"], returnInBlocks, 0⟩
  let globals : Scope := ⟨[("f", .function c)], none⟩
  let before : Store := ⟨#[globals], 1, ""⟩
  let called : Store := ⟨#[globals, ⟨[("x", .bool true)], some 0⟩], 1, ""⟩
  let written : Store := { called with output := "1\n" }
  have hname : (Expr.ident "f").eval 2 0 before = .ok (.function c) before := by
    with_unfolding_all rfl
  have harg : evalExprs (evalBlock 2) 0 [.bool true] before = .ok [.bool true] before := by
    with_unfolding_all rfl
  have htest : (Expr.ident "x").eval 1 1 called = .ok (.bool true) called := by
    with_unfolding_all rfl
  have hputs : (Stmt.expr (.call (.ident "puts") [.int 1])).eval 1 1 called =
      .ok .null written := by with_unfolding_all rfl
  have hinner : (Expr.bool true).eval 1 1 written = .ok (.bool true) written := by
    with_unfolding_all rfl
  have hreach : ReachesReturn 1 returnInBlocks 1 called (.int 5) written :=
    .head .first <| .head (.yes htest rfl) <| .head (.next hputs rfl) <| .head .first <|
      .head (.yes hinner rfl) <| .single .first
  have he : (Expr.int 5).eval 1 1 written = .ok (.int 5) written := by with_unfolding_all rfl
  obtain ⟨hblock, hprogram, -, hcalls⟩ := hreach.unwinds he rfl
  have hbegins : c.Begins [.bool true] before 1 called := ⟨rfl, rfl, rfl⟩
  have hcall : Expr.Calls 2 0 (.ident "f") [.bool true] before c [.bool true] before :=
    ⟨rfl, before, hname, harg⟩
  have hgoes := ((hcalls c _ _ rfl hbegins).2 0 _ _ _ hcall).1
  have hlookup : before.lookup 0 "f" = some (.function c) := by with_unfolding_all rfl
  exact ⟨c, 1, before, called, written, hlookup, rfl, hreach, he, hblock, hprogram, hgoes, rfl⟩

end Block.ReachesReturn

end QuoteLang
