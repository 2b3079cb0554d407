import Mathlib.Algebra.Group.Nat.Defs
import QuoteLang.Proofs.Depth
import QuoteLang.Proofs.Order
import QuoteLang.Proofs.Plain
import QuoteLang.Proofs.Templates

set_option relaxedAutoImplicit false
set_option autoImplicit false

/-!
# Loops over arrays

A loop over an array is written as a function that calls itself. It takes what is left of the
array, and what has been accumulated so far. In each round it asks whether anything is left; if so,
it calls itself with the rest of the array and the next accumulator, and otherwise it yields the
accumulator.

The function finds itself under its name in the scope in which it was made, and its parameters in
the scope of the round. Each round is inside the scope of the function and not inside the round
before it, so the rounds differ in what the parameters are bound to, and in nothing else.

## Main definitions

* `loopBody` — the body of the loop, given the name of the accumulator and how the next one is
  computed.
* `Store.SeesLoop` — the names that a loop uses mean what they should in a scope.
* `Store.MakesScope` — one scope is made, and names are bound in it.
* `Value.CalledAlong` — calls are made one after the other, each of them once.
* `Folding`, `Folding.calls` — how a loop folds an array, and the calls that it makes.
* `Folding.ComputedBy` — an expression computes the next accumulator by one call.

## Main results

* `Store.lookup_around` — what is not bound in the scope of a call is looked for around it.
* `Store.Round.evalBlock_eq` — what a round of the loop does.
* `Folding.exists_evalBlock` — the loop computes its fold, and makes its calls.
-/

namespace QuoteLang

open Run

/-! ## Scopes of calls -/

/-- **What is not bound in the scope of a call is looked for around it.** -/
theorem Store.lookup_around {st : Store} {outer : ScopeId} {pairs : List (String × Value)}
    {name : String} (hlt : outer < st.scopes.size) (h : name ∉ pairs.map Prod.fst) :
    ((st.enclose outer).2.bindAll st.scopes.size pairs).lookup st.scopes.size name =
      st.lookup outer name := by
  have hnew : (st.enclose outer).2.scopes[st.scopes.size]? = some ⟨[], some outer⟩ :=
    Array.getElem?_push_size
  obtain ⟨s, hs, houter, -⟩ := (Framed.bindAll st.scopes.size _ pairs).own _ hnew
  have hbound : s.bindings.lookup name = none := by
    have hsame := bound_bindAll_of_notMem h (st.enclose outer).2 st.scopes.size
    simpa [bound, hs, hnew] using hsame
  have hext : st.Extends ((st.enclose outer).2.bindAll st.scopes.size pairs) :=
    extends_of_framed_new ((Extends.refl _).framed st.scopes.size)
  rw [lookup_eq hs (fun o ho => Option.some.inj (houter.symm.trans ho) ▸ hlt), hbound, houter]
  exact hext.lookup hlt name

/-- One scope is made, and names are bound in it. -/
def Store.MakesScope (st st' : Store) : Prop :=
  ∃ outer pairs, st' = (st.enclose outer).2.bindAll st.scopes.size pairs

/-- Making a scope changes no scope that was there before. -/
lemma Store.MakesScope.extends {st st' : Store} (h : st.MakesScope st') : st.Extends st' := by
  obtain ⟨outer, pairs, rfl⟩ := h
  exact extends_of_framed_new ((Extends.refl _).framed st.scopes.size)

/-- Where a name is found in a scope, the scope has been made. -/
lemma Store.lt_size_of_lookup {st : Store} {i : ScopeId} {name : String} {v : Value}
    (h : st.lookup i name = some v) : i < st.scopes.size := by
  by_contra hle
  rw [lookup, Array.getElem?_eq_none (Nat.le_of_not_lt hle)] at h
  cases h

section

variable {deeper : Deeper} {i : ScopeId} {st st₁ st₂ : Store} {name : String} {v f : Value}
  {args : List Expr} {vs : List Value}

/-- A name that is bound to what is no error has that value. -/
lemma nameValue_of_lookup (h : st.lookup i name = some v) (hv : v.Settled) :
    nameValue i name st = .ok v st := by
  have hget : (Run.get (·.lookup i name) : Run Fault (Option Value)) st = .ok (some v) st := by
    rw [Run.get, h]
  refine (bind_of_ok hget).trans ?_
  simp only [hv.settle]
  rfl

/-- The name of a built-in function that is not bound to anything else. -/
lemma nameValue_builtin {b : Builtin} (h : st.lookup i b.name = none) :
    nameValue i b.name st = .ok (.builtin b) st := by
  have hget : (Run.get (·.lookup i b.name) : Run Fault (Option Value)) st = .ok none st := by
    rw [Run.get, h]
  refine (bind_of_ok hget).trans ?_
  simp only [b.ofName?_name]
  rfl

/-- An expression and the expressions after it. -/
lemma evalExprs_cons {e : Expr} {es : List Expr} (he : e.evalWith deeper i st = .ok v st₁)
    (hes : evalExprs deeper i es st₁ = .ok vs st₂) :
    evalExprs deeper i (e :: es) st = .ok (v :: vs) st₂ := by
  rw [evalExprs]
  exact (bind_of_ok he).trans ((bind_of_ok hes).trans rfl)

/-- A single expression. -/
lemma evalExprs_singleton {e : Expr} (he : e.evalWith deeper i st = .ok v st₁) :
    evalExprs deeper i [e] st = .ok [v] st₁ :=
  evalExprs_cons he (by rw [evalExprs]; rfl)

/-- A call of a name: the function is found, the arguments are evaluated, and it is called. -/
lemma Expr.evalWith_callName (hname : name ≠ "quote") (hf : nameValue i name st = .ok f st)
    (hargs : evalExprs deeper i args st = .ok vs st₁) :
    (Expr.call (.ident name) args).evalWith deeper i st = applyWith deeper f vs st₁ := by
  have hquote : (Expr.ident name).isQuoteName = false := by
    simpa [isQuoteName] using hname
  rw [Expr.evalWith, hquote, Expr.evalWith]
  exact (bind_of_ok hf).trans (bind_of_ok hargs)

/-- A call of a function whose body has an ordinary value. -/
lemma applyWith_of_body {c : Closure} (hlen : vs.length = c.params.length)
    (hbody : deeper c.body st.scopes.size
      ((st.enclose c.scope).2.bindAll st.scopes.size (c.params.zip vs)) = .ok v st₁)
    (hv : v.Ordinary) : applyWith deeper (.function c) vs st = .ok v st₁ := by
  rw [applyWith_function hlen]
  refine (bind_of_ok hbody).trans ?_
  rw [hv.settle_unwrapReturn]
  rfl

/-- A call of the built-in function of a name that is not bound to anything else. -/
lemma Expr.evalWith_callBuiltin {b : Builtin} (hb : st.lookup i b.name = none)
    (hargs : evalExprs deeper i args st = .ok vs st₁) (hcall : b.call vs = Pure.pure v)
    (hv : v.Settled) :
    (Expr.call (.ident b.name) args).evalWith deeper i st = .ok v st₁ := by
  have hname : b.name ≠ "quote" := by cases b <;> decide
  rw [Expr.evalWith_callName hname (nameValue_builtin hb) hargs, applyWith, hcall]
  refine (bind_of_ok (pure_apply v st₁)).trans ?_
  rw [hv.settle]
  rfl

/-- A call that ends with a value ends with the same value at every larger depth. -/
lemma Value.apply_of_le {d d' : Nat} (hd : d ≤ d') (h : f.apply d vs st = .ok v st₁) :
    f.apply d' vs st = .ok v st₁ :=
  (applyWith_approximates (evalBlock_approximates hd) f vs).of_ok h

end

/-! ## Loops -/

/-- The body of a loop, given the name of the accumulator and the expression that computes the next
one. -/
def loopBody (acc : String) (step : Expr) : Block :=
  [.expr (.cond (.binary .eq (.call (.ident "len") [.ident "arr"]) (.int 0)) [.expr (.ident acc)]
    (some [.expr (.call (.ident "iter") [.call (.ident "rest") [.ident "arr"], step])]))]

/-- A function is a **loop**: it takes an array and an accumulator, and has the body of a loop. -/
structure Closure.IsLoop (c : Closure) (acc : String) (step : Expr) : Prop where
  /-- The parameters are the array and the accumulator. -/
  params_eq : c.params = ["arr", acc]
  /-- The body is that of a loop. -/
  body_eq : c.body = loopBody acc step

/-- The built-in functions that a loop over an array may use. -/
def loopBuiltins : List Builtin := [.len, .first, .rest, .push]

/-- The names that a loop uses, apart from its parameters. -/
def loopNames : List String := ["iter", "f"] ++ loopBuiltins.map Builtin.name

/-- A scope **hides no built-in function** that a loop may use: their names are not bound. -/
def Store.HidesNone (st : Store) (i : ScopeId) : Prop :=
  ∀ b ∈ loopBuiltins, st.lookup i b.name = none

/-- In a scope the names that a loop uses **mean what they should**: the loop itself, the function
that it calls, and the built-in functions. -/
structure Store.SeesLoop (st : Store) (i : ScopeId) (f : Value) (loop : Closure) : Prop where
  /-- The loop is found under its name. -/
  iter : st.lookup i "iter" = some (.function loop)
  /-- The function is found under its name. -/
  f : st.lookup i "f" = some f
  /-- The built-in functions are not hidden. -/
  builtin : st.HidesNone i

/-- A scope is that of a **round** of a loop: it binds what is left of the array, and the
accumulator. -/
structure Store.Round (st : Store) (i : ScopeId) (f : Value) (loop : Closure) (acc : String)
    (items : List Value) (a : Value) : Prop extends st.SeesLoop i f loop where
  /-- What is left of the array. -/
  arr : st.lookup i "arr" = some (.array items)
  /-- What has been accumulated. -/
  acc : st.lookup i acc = some a

/-- The store in which a round begins: there is one scope more, which binds the parameters. -/
def Store.beginRound (st : Store) (outer : ScopeId) (acc : String) (items : List Value)
    (a : Value) : Store :=
  (st.enclose outer).2.bindAll st.scopes.size [("arr", .array items), (acc, a)]

section

variable {st st' : Store} {i : ScopeId} {f : Value} {loop : Closure} {acc : String} {step : Expr}

namespace Store

/-- The names mean the same in later stores. -/
lemma SeesLoop.of_extends (h : st.SeesLoop i f loop) (hext : st.Extends st') :
    st'.SeesLoop i f loop := by
  have hsame := hext.lookup (lt_size_of_lookup h.iter)
  exact ⟨(hsame _).trans h.iter, (hsame _).trans h.f, fun b hb => (hsame _).trans (h.builtin b hb)⟩

/-- The names mean the same in the scope of a call, if they are none of its parameters. -/
lemma SeesLoop.enclose (h : st.SeesLoop i f loop) {pairs : List (String × Value)}
    (hnames : ∀ name ∈ loopNames, name ∉ pairs.map Prod.fst) :
    ((st.enclose i).2.bindAll st.scopes.size pairs).SeesLoop st.scopes.size f loop := by
  have hsame {name : String} (hname : name ∈ loopNames) :=
    lookup_around (lt_size_of_lookup h.iter) (hnames name hname)
  refine ⟨(hsame (by decide)).trans h.iter, (hsame (by decide)).trans h.f, fun b hb => ?_⟩
  have hname : b.name ∈ loopNames := List.mem_append_right _ (List.mem_map_of_mem hb)
  exact (hsame hname).trans (h.builtin b hb)

/-- **A call of the loop begins a round.** -/
theorem SeesLoop.round (h : st.SeesLoop i f loop) (hacc : acc ∉ "arr" :: loopNames)
    (items : List Value) (a : Value) :
    (st.beginRound i acc items a).Round st.scopes.size f loop acc items a := by
  rw [List.mem_cons, not_or] at hacc
  have hnodup :
      (([("arr", .array items), (acc, a)] : List (String × Value)).map Prod.fst).Nodup := by
    simpa using Ne.symm hacc.1
  refine ⟨h.enclose fun name hname hmem => ?_, lookup_bindAll hnodup (by simp) st i,
    lookup_bindAll hnodup (by simp) st i⟩
  rcases List.mem_pair.mp hmem with harr | hself
  · obtain rfl : name = "arr" := harr
    exact absurd hname (by decide)
  · obtain rfl : name = acc := hself
    exact hacc.2 hname

end Store

/-- A length below `2 ^ 64` is zero as a word exactly if it is zero. -/
lemma ofNat_length_beq_zero {items : List Value} (h : items.length < 2 ^ 64) :
    (Int64.ofNat items.length == 0) = items.isEmpty := by
  rw [Bool.eq_iff_iff, beq_iff_eq, List.isEmpty_iff_length_eq_zero, ← Int64.toBitVec_inj]
  constructor
  · intro hzero
    have hmod : items.length % 2 ^ 64 = 0 := by simpa using congrArg BitVec.toNat hzero
    rwa [Nat.mod_eq_of_lt h] at hmod
  · intro hzero
    rw [hzero]
    rfl

namespace Store.Round

variable {items : List Value} {a x : Value} {deeper : Deeper}

/-- What is left of the array is found. -/
lemma eval_arr (h : st.Round i f loop acc items a) :
    evalExprs deeper i [.ident "arr"] st = .ok [.array items] st :=
  evalExprs_singleton (by rw [Expr.evalWith]; exact nameValue_of_lookup h.arr rfl)

/-- A round asks whether anything is left. -/
lemma eval_test (h : st.Round i f loop acc items a) (hlen : items.length < 2 ^ 64) :
    (Expr.binary .eq (.call (.ident "len") [.ident "arr"]) (.int 0)).evalWith deeper i st =
      .ok (.bool items.isEmpty) st := by
  have hcall : (Expr.call (.ident "len") [.ident "arr"]).evalWith deeper i st =
      .ok (.int (Int64.ofNat items.length)) st :=
    Expr.evalWith_callBuiltin (b := .len) (h.builtin .len (by decide)) h.eval_arr rfl rfl
  rw [Expr.evalWith, Expr.evalWith, ← ofNat_length_beq_zero hlen]
  exact (bind_of_ok hcall).trans ((bind_of_ok rfl).trans rfl)

/-- The first item of what is left. -/
lemma eval_first (h : st.Round i f loop acc (x :: items) a) (hx : x.Settled) :
    (Expr.call (.ident "first") [.ident "arr"]).evalWith deeper i st = .ok x st :=
  Expr.evalWith_callBuiltin (b := .first) (h.builtin .first (by decide)) h.eval_arr rfl hx

/-- What is left after the round. -/
lemma eval_rest (h : st.Round i f loop acc (x :: items) a) :
    (Expr.call (.ident "rest") [.ident "arr"]).evalWith deeper i st = .ok (.array items) st :=
  Expr.evalWith_callBuiltin (b := .rest) (h.builtin .rest (by decide)) h.eval_arr rfl rfl

/-- **What a round does**: if nothing is left it yields the accumulator, and otherwise it calls the
loop with the rest of the array and the next accumulator. -/
theorem evalBlock_eq (h : st.Round i f loop acc items a) (hlen : items.length < 2 ^ 64)
    (depth : Nat) : evalBlock (depth + 1) (loopBody acc step) i st =
      (if items.isEmpty then (Expr.ident acc).eval depth i
        else (Expr.call (.ident "iter")
          [.call (.ident "rest") [.ident "arr"], step]).eval depth i) st := by
  rw [evalBlock_succ, Block.eval, loopBody, evalStmts_expr, Expr.evalWith]
  refine (bind_of_ok (h.eval_test hlen)).trans ?_
  rw [evalStmts_expr, evalStmts_expr]
  cases items.isEmpty <;> rfl

end Store.Round

end

/-! ## Folds -/

/-- Calls are made **one after the other, each of them once**, and a scope is made after each of
them. Nothing else is done to the store. -/
inductive Value.CalledAlong (f : Value) : List (List Value × Value) → Store → Store → Prop
  /-- There is nothing to call. -/
  | nil (st : Store) : CalledAlong f [] st st
  /-- The first call is made, and then the rest. -/
  | cons {args : List Value} {r : Value} {calls : List (List Value × Value)} {depth : Nat}
      {st st₁ st₂ st₃ : Store} (hcall : f.apply depth args st = .ok r st₁)
      (hscope : st₁.MakesScope st₂) (hrest : CalledAlong f calls st₂ st₃) :
      CalledAlong f ((args, r) :: calls) st st₃

/-- How a loop folds an array: with one call for each item. -/
structure Folding (α : Type) where
  /-- The value of an accumulator. -/
  val : α → Value
  /-- The arguments of the call for an item. -/
  args : α → Value → List Value
  /-- What that call yields. -/
  result : α → Value → Value
  /-- The accumulator after the item. -/
  next : α → Value → α

namespace Folding

variable {α : Type}

/-- The calls of a fold with what they yield. -/
def calls (F : Folding α) (a : α) : List Value → List (List Value × Value)
  | [] => []
  | x :: items => (F.args a x, F.result a x) :: F.calls (F.next a x) items

/-- A loop **computes** a fold: the expression of the loop computes the next accumulator by one call
of the function, and nothing else is done to the store. -/
structure ComputedBy (F : Folding α) (f : Value) (acc : String) (step : Expr) : Prop where
  /-- The next accumulator is computed. -/
  eval {depth : Nat} {st st' : Store} {i : ScopeId} {loop : Closure} {items : List Value} {a : α}
    {x : Value} : st.Round i f loop acc (x :: items) (F.val a) → (F.val a).Ordinary → x.Settled →
    f.apply depth (F.args a x) st = .ok (F.result a x) st' →
      step.eval depth i st = .ok (F.val (F.next a x)) st'
  /-- It is ordinary if the function has yielded plain data. -/
  ordinary {a : α} {x : Value} : (F.result a x).IsPlain → (F.val (F.next a x)).Ordinary

variable {F : Folding α} {f : Value} {acc : String} {step : Expr} {loop : Closure}
  {st st₁ st' : Store} {i : ScopeId} {x : Value} {items : List Value} {a : α} {depth : Nat}

/-- The last round yields the accumulator. -/
lemma evalBlock_nil (hround : st.Round i f loop acc [] (F.val a)) (ha : (F.val a).Ordinary) :
    evalBlock 1 (loopBody acc step) i st = .ok (F.val a) st := by
  rw [hround.evalBlock_eq (by decide), List.isEmpty_nil, if_pos rfl, Expr.eval, Expr.evalWith]
  exact nameValue_of_lookup hround.acc ha.settled

/-- A round before the last makes one call and a scope, and goes on in the next round. -/
lemma evalBlock_cons (hF : F.ComputedBy f acc step) (hloop : loop.IsLoop acc step)
    (hround : st.Round i f loop acc (x :: items) (F.val a)) (ha : (F.val a).Ordinary)
    (hx : x.Settled) (hlen : (x :: items).length < 2 ^ 64)
    (hcall : f.apply depth (F.args a x) st = .ok (F.result a x) st₁) {v : Value} (hv : v.Ordinary)
    (hnext : evalBlock depth (loopBody acc step) st₁.scopes.size
      (st₁.beginRound loop.scope acc items (F.val (F.next a x))) = .ok v st') :
    evalBlock (depth + 1) (loopBody acc step) i st = .ok v st' := by
  have hargs : evalExprs (evalBlock depth) i [.call (.ident "rest") [.ident "arr"], step] st =
      .ok [.array items, F.val (F.next a x)] st₁ :=
    evalExprs_cons hround.eval_rest (evalExprs_singleton (hF.eval hround ha hx hcall))
  rw [hround.evalBlock_eq hlen, List.isEmpty_cons, if_neg Bool.false_ne_true, Expr.eval,
    Expr.evalWith_callName (by decide) (nameValue_of_lookup hround.iter rfl) hargs]
  refine applyWith_of_body (by rw [hloop.params_eq]; rfl) ?_ hv
  rw [hloop.params_eq, hloop.body_eq]
  exact hnext

/-- **A loop computes its fold**, and calls the function exactly once for each item, from left to
right. The function has to yield plain data wherever it is called.

**Proof sketch.** Induction on what is left of the array. A round makes the call for the first item
and begins the next round in a new scope. What the round sees is not changed by the call. -/
theorem exists_evalBlock (hF : F.ComputedBy f acc step) (hloop : loop.IsLoop acc step)
    (hacc : acc ∉ "arr" :: loopNames) (hround : st.Round i f loop acc items (F.val a))
    (houter : st.SeesLoop loop.scope f loop) (ha : (F.val a).Ordinary)
    (hitems : ∀ x ∈ items, x.Settled) (hlen : items.length < 2 ^ 64)
    (hcalls : ∀ call ∈ F.calls a items, ∀ later, st.Extends later →
      f.Yields later call.1 call.2) :
    (F.val (items.foldl F.next a)).Ordinary ∧ ∃ depth st',
      evalBlock depth (loopBody acc step) i st = .ok (F.val (items.foldl F.next a)) st' ∧
        f.CalledAlong (F.calls a items) st st' := by
  induction items generalizing a st i with
  | nil => exact ⟨ha, 1, st, evalBlock_nil hround ha, .nil st⟩
  | cons x items ih =>
    rw [List.forall_mem_cons] at hitems
    rw [calls, List.forall_mem_cons] at hcalls
    obtain ⟨hplain, d₁, st₁, hcall⟩ := hcalls.1 st (.refl st)
    have hext : st.Extends st₁ := (applyWith_extends d₁ f _ st).of_ok hcall
    have hscope : st₁.MakesScope (st₁.beginRound loop.scope acc items (F.val (F.next a x))) :=
      ⟨_, _, rfl⟩
    have hlater := hext.trans hscope.extends
    have hnext := hF.ordinary hplain
    obtain ⟨hv, d₂, st₂, hrest, halong⟩ := ih ((houter.of_extends hext).round hacc items _)
      (houter.of_extends hlater) hnext hitems.2 (Nat.lt_of_succ_lt hlen)
      fun call hmem later h => hcalls.2 call hmem later (hlater.trans h)
    -- The call and the rounds after it need different depths. The larger one is enough for both.
    refine ⟨hv, max d₁ d₂ + 1, st₂, ?_, .cons hcall hscope halong⟩
    exact evalBlock_cons hF hloop hround ha hitems.1 hlen
      (Value.apply_of_le (Nat.le_max_left d₁ d₂) hcall) hv
      ((evalBlock_approximates (Nat.le_max_right d₁ d₂) _ _).of_ok hrest)

end Folding

end QuoteLang
