import QuoteLang.Proofs.Growth
import QuoteLang.Proofs.Loops
import QuoteLang.Proofs.Outcomes

set_option relaxedAutoImplicit false
set_option autoImplicit false

/-!
# Folds by recursion through closures

Functions that fold an array can be written in the language itself. Such a function makes a loop in
the scope of its call and binds it there, so that the loop finds itself when it goes on. Two of them
are `map`, which puts the results of a function into an array, and `reduce`, which is the left fold.

## Main definitions

* `loopDefinition` — the body of a function that folds an array with a loop.
* `Closure.TakesFold` — the values with which such a function is called.
* `Value.MakesCalls` — what a fold does to a store.
* `mapCalls`, `reduceCalls` — the calls that `map` and `reduce` make.
* `foldDefinitions`, `Session.withFolds` — the text that defines them, and the session after it.
* `Store.Prepares` — the arguments of a call have been evaluated where the definitions stand.

## Main results

* `Folding.exists_apply` — a function that runs a loop folds an array.
* `Session.run_foldDefinitions` — the text defines `map` and `reduce`.
* `eval_folds` — what calls of `map` and `reduce` compute.
-/

namespace QuoteLang

open Run

/-! ## Functions that run a loop -/

/-- The body of a function that folds an array with a loop, given the accumulator before the first
round. -/
def loopDefinition (acc : String) (step start : Expr) : Block :=
  [.letBind "iter" (.fnLit ["arr", acc] (loopBody acc step)),
    .expr (.call (.ident "iter") [.ident "arr", start])]

/-- Names are bound one after the other whether or not a function is made before. -/
lemma Store.newClosure_bindAll (st : Store) (scope : ScopeId) (pairs : List (String × Value))
    (params : List String) (body : Block) (k : ScopeId) :
    (st.bindAll scope pairs).newClosure params body k =
      (⟨st.closures, params, body, k⟩, (st.newClosure params body k).2.bindAll scope pairs) := by
  induction pairs generalizing st with
  | nil => rfl
  | cons p pairs ih => exact ih (st.bind scope p.1 p.2)

/-- Making a function changes no scope. -/
lemma Store.extends_newClosure (st : Store) (params : List String) (body : Block) (k : ScopeId) :
    st.Extends (st.newClosure params body k).2 :=
  ⟨Nat.le_refl _, fun _ _ => rfl⟩

/-- A last name is bound after the others. -/
lemma Store.bindAll_concat (st : Store) (scope : ScopeId) (pairs : List (String × Value))
    (p : String × Value) :
    st.bindAll scope (pairs ++ [p]) = (st.bindAll scope pairs).bind scope p.1 p.2 := by
  rw [bindAll, List.foldl_append]
  rfl

section

variable {st : Store} {c : Closure} {acc : String} {step start : Expr} {vs : List Value}

/-- The loop that is made in the scope of a call, which is the next scope. -/
def Store.newLoop (st : Store) (acc : String) (step : Expr) : Closure :=
  ⟨st.closures, ["arr", acc], loopBody acc step, st.scopes.size⟩

/-- The store in which the loop is called: one function more, and one scope more, which binds the
parameters and the loop. -/
def Store.withLoop (st : Store) (c : Closure) (vs : List Value) (acc : String) (step : Expr) :
    Store :=
  ((st.newClosure ["arr", acc] (loopBody acc step) st.scopes.size).2.enclose c.scope).2.bindAll
    st.scopes.size (c.params.zip vs ++ [("iter", .function (st.newLoop acc step))])

/-- The loop is made and bound. -/
lemma Stmt.evalWith_letLoop (deeper : Deeper) :
    (Stmt.letBind "iter" (.fnLit ["arr", acc] (loopBody acc step))).evalWith deeper st.scopes.size
        ((st.enclose c.scope).2.bindAll st.scopes.size (c.params.zip vs)) =
      .ok (.function (st.newLoop acc step)) (st.withLoop c vs acc step) := by
  have hnew := Store.newClosure_bindAll (st.enclose c.scope).2 st.scopes.size (c.params.zip vs)
    ["arr", acc] (loopBody acc step) st.scopes.size
  have hmake : (Run.make (·.newClosure ["arr", acc] (loopBody acc step) st.scopes.size) :
      Run Fault Closure) ((st.enclose c.scope).2.bindAll st.scopes.size (c.params.zip vs)) =
        .ok (st.newLoop acc step) ((Store.newClosure (st.enclose c.scope).2 ["arr", acc]
          (loopBody acc step) st.scopes.size).2.bindAll st.scopes.size (c.params.zip vs)) := by
    rw [Run.make, hnew]
    rfl
  rw [Stmt.evalWith, Expr.evalWith, Store.withLoop, Store.bindAll_concat]
  exact bind_eq_ok.mpr ⟨_, _, bind_eq_ok.mpr ⟨_, _, hmake, rfl⟩, rfl⟩

/-- The values with which a function is called that folds an array with a loop. -/
structure Closure.TakesFold (c : Closure) (vs : List Value) (items : List Value) (f : Value) :
    Prop where
  /-- There are as many values as parameters. -/
  length_eq : vs.length = c.params.length
  /-- No parameter comes twice, and none has the name of the loop. -/
  nodup : (c.params ++ ["iter"]).Nodup
  /-- No parameter hides a built-in function. -/
  notMem : ∀ b ∈ loopBuiltins, b.name ∉ c.params ++ ["iter"]
  /-- One of the values is the array. -/
  arr : ("arr", .array items) ∈ c.params.zip vs
  /-- One of the values is the function. -/
  f : ("f", f) ∈ c.params.zip vs

namespace Closure.TakesFold

variable {items : List Value} {f v : Value} {name : String}

/-- The names that are bound where the loop is called. -/
lemma keys_eq (h : c.TakesFold vs items f) : (c.params.zip vs ++
    [("iter", Value.function (st.newLoop acc step))]).map Prod.fst = c.params ++ ["iter"] := by
  rw [List.map_append, keys_zip_params h.length_eq]
  rfl

/-- Each parameter is bound to its value there. -/
lemma lookup_withLoop (h : c.TakesFold vs items f) (hv : (name, v) ∈ c.params.zip vs) :
    (st.withLoop c vs acc step).lookup st.scopes.size name = some v :=
  Store.lookup_bindAll (h.keys_eq ▸ h.nodup) (List.mem_append_left _ hv) _ c.scope

/-- The loop is bound to its name. -/
lemma lookup_iter (h : c.TakesFold vs items f) :
    (st.withLoop c vs acc step).lookup st.scopes.size "iter" =
      some (.function (st.newLoop acc step)) :=
  Store.lookup_bindAll (h.keys_eq ▸ h.nodup) (by simp) _ c.scope

/-- The names that the loop uses mean there what they should. -/
lemma seesLoop (h : c.TakesFold vs items f) (hscope : c.scope < st.scopes.size)
    (hst : st.HidesNone c.scope) :
    (st.withLoop c vs acc step).SeesLoop st.scopes.size f (st.newLoop acc step) where
  iter := h.lookup_iter
  f := h.lookup_withLoop h.f
  builtin b hb := by
    let made : Store := (st.newClosure ["arr", acc] (loopBody acc step) st.scopes.size).2
    have hname : b.name ∉ (c.params.zip vs ++
        [("iter", Value.function (st.newLoop acc step))]).map Prod.fst :=
      h.keys_eq ▸ h.notMem b hb
    have haround : (st.withLoop c vs acc step).lookup st.scopes.size b.name =
        made.lookup c.scope b.name := Store.lookup_around hscope hname
    rw [haround, (st.extends_newClosure _ _ _).lookup hscope]
    exact hst b hb

end Closure.TakesFold

/-- **What a fold does to a store**: one function and two scopes are made, and then the calls, each
of them once and in this order. -/
def Value.MakesCalls (f : Value) (calls : List (List Value × Value)) (st st' : Store) : Prop :=
  ∃ params body scope entry first,
    (st.newClosure params body scope).2.MakesScope entry ∧ entry.MakesScope first ∧
      f.CalledAlong calls first st'

/-- A call of a function that runs a loop: what the first round yields is what the call yields. -/
lemma applyWith_loopDefinition {items : List Value} {f v a : Value} {depth : Nat} {st' : Store}
    (hbody : c.body = loopDefinition acc step start) (hargs : c.TakesFold vs items f)
    (hstart : start.eval depth st.scopes.size (st.withLoop c vs acc step) =
      .ok a (st.withLoop c vs acc step))
    (hround : evalBlock depth (loopBody acc step) (st.withLoop c vs acc step).scopes.size
      ((st.withLoop c vs acc step).beginRound st.scopes.size acc items a) = .ok v st')
    (hv : v.Ordinary) : (Value.function c).apply (depth + 1) vs st = .ok v st' := by
  have harr : (Expr.ident "arr").eval depth st.scopes.size (st.withLoop c vs acc step) =
      .ok (.array items) (st.withLoop c vs acc step) := by
    rw [Expr.eval, Expr.evalWith]
    exact nameValue_of_lookup (hargs.lookup_withLoop hargs.arr) rfl
  have hcall : evalStmts (evalBlock depth) st.scopes.size (.function (st.newLoop acc step))
      [.expr (.call (.ident "iter") [.ident "arr", start])] (st.withLoop c vs acc step) =
        .ok v st' := by
    rw [evalStmts_expr, Expr.evalWith_callName (by decide)
      (nameValue_of_lookup hargs.lookup_iter rfl)
      (evalExprs_cons harr (evalExprs_singleton hstart))]
    exact applyWith_of_body rfl hround hv
  refine applyWith_of_body hargs.length_eq ?_ hv
  rw [hbody, evalBlock_succ, Block.eval, loopDefinition, evalStmts_cons]
  exact (bind_of_ok (Stmt.evalWith_letLoop _)).trans hcall

/-- **A function that runs a loop folds an array.** It yields the value of the fold, and makes the
calls of the fold in order.

**Proof sketch.** The loop is made in the scope of the call and bound there, so its body sees it.
The first round begins with the accumulator that the function starts with. -/
theorem Folding.exists_apply {α : Type} {F : Folding α} {f : Value} {a : α} {items : List Value}
    (hF : F.ComputedBy f acc step) (hacc : acc ∉ "arr" :: loopNames)
    (hbody : c.body = loopDefinition acc step start) (hargs : c.TakesFold vs items f)
    (hscope : c.scope < st.scopes.size) (hst : st.HidesNone c.scope)
    (hstart : ∀ depth, start.eval depth st.scopes.size (st.withLoop c vs acc step) =
      .ok (F.val a) (st.withLoop c vs acc step))
    (ha : (F.val a).Ordinary) (hitems : ∀ x ∈ items, x.Settled) (hlen : items.length < 2 ^ 64)
    (hcalls : ∀ call ∈ F.calls a items, ∀ later, st.Extends later →
      f.Yields later call.1 call.2) :
    ∃ depth st', (Value.function c).apply depth vs st = .ok (F.val (items.foldl F.next a)) st' ∧
      f.MakesCalls (F.calls a items) st st' := by
  have hmade : (st.newClosure ["arr", acc] (loopBody acc step) st.scopes.size).2.MakesScope
      (st.withLoop c vs acc step) := ⟨_, _, rfl⟩
  have hbegin : (st.withLoop c vs acc step).MakesScope
      ((st.withLoop c vs acc step).beginRound st.scopes.size acc items (F.val a)) := ⟨_, _, rfl⟩
  have hext := (st.extends_newClosure ["arr", acc] (loopBody acc step) st.scopes.size).trans
    (hmade.extends.trans hbegin.extends)
  have hloop : (st.newLoop acc step).IsLoop acc step := ⟨rfl, rfl⟩
  have hsees : (st.withLoop c vs acc step).SeesLoop st.scopes.size f (st.newLoop acc step) :=
    hargs.seesLoop hscope hst
  obtain ⟨hv, depth, st', hround, halong⟩ := F.exists_evalBlock hF hloop hacc
    (hsees.round hacc items _) (hsees.of_extends hbegin.extends) ha hitems hlen
    fun call hmem later h => hcalls call hmem later (hext.trans h)
  exact ⟨depth + 1, st', applyWith_loopDefinition hbody hargs (hstart depth) hround hv, _, _, _, _,
    _, hmade, hbegin, halong⟩

end

/-! ## Mapping and reducing -/

/-- How `map` computes the next accumulator. -/
def mapStep : Expr :=
  .call (.ident "push") [.ident "accumulated", .call (.ident "f") [.call (.ident "first")
    [.ident "arr"]]]

/-- How `reduce` computes the next accumulator. -/
def reduceStep : Expr :=
  .call (.ident "f") [.ident "result", .call (.ident "first") [.ident "arr"]]

/-- The fold that puts the results of a function into an array. -/
def Folding.mapping (G : Value → Value) : Folding (List Value) where
  val := .array
  args _ x := [x]
  result _ x := G x
  next results x := results ++ [G x]

/-- The fold whose accumulator is what a function yields for the one before and the item. -/
def Folding.reducing (F : Value → Value → Value) : Folding Value where
  val := id
  args a x := [a, x]
  result := F
  next := F

/-- The calls of a mapping: one for each item. -/
def mapCalls (G : Value → Value) (items : List Value) : List (List Value × Value) :=
  items.map fun x => ([x], G x)

/-- The calls of a left fold: one for each item, with what has been accumulated before it. -/
def reduceCalls (F : Value → Value → Value) (init : Value) (items : List Value) :
    List (List Value × Value) :=
  ((items.scanl F init).zip items).map fun p => ([p.1, p.2], F p.1 p.2)

namespace Folding

variable {G : Value → Value} {F : Value → Value → Value} {f : Value}

/-- These are the calls of the fold that maps. -/
lemma calls_mapping (results items : List Value) :
    (mapping G).calls results items = mapCalls G items := by
  induction items generalizing results with
  | nil => rfl
  | cons x items ih => exact congrArg (_ :: ·) (ih _)

/-- Its last accumulator holds the results in order. -/
lemma foldl_mapping (results items : List Value) :
    items.foldl (mapping G).next results = results ++ items.map G := by
  induction items generalizing results with
  | nil => exact (List.append_nil results).symm
  | cons x items ih => exact (ih _).trans (List.append_assoc results [G x] _)

/-- These are the calls of the fold that reduces. -/
lemma calls_reducing (init : Value) (items : List Value) :
    (reducing F).calls init items = reduceCalls F init items := by
  induction items generalizing init with
  | nil => rfl
  | cons x items ih =>
    rw [calls, reduceCalls, List.scanl_cons]
    exact congrArg (_ :: ·) (ih _)

/-- The loop of `map` computes a mapping. -/
lemma computedBy_mapStep (hf : f.Settled) :
    (mapping G).ComputedBy f "accumulated" mapStep where
  eval {depth st st' i loop items a x} hround ha hx hcall := by
    have hacc : (Expr.ident "accumulated").evalWith (evalBlock depth) i st = .ok (.array a) st := by
      rw [Expr.evalWith]
      exact nameValue_of_lookup hround.acc rfl
    have hresult : (Expr.call (.ident "f") [.call (.ident "first") [.ident "arr"]]).evalWith
        (evalBlock depth) i st = .ok (G x) st' :=
      (Expr.evalWith_callName (by decide) (nameValue_of_lookup hround.f hf)
        (evalExprs_singleton (hround.eval_first hx))).trans hcall
    exact Expr.evalWith_callBuiltin (b := .push) (hround.builtin .push (by decide))
      (evalExprs_cons hacc (evalExprs_singleton hresult)) rfl rfl
  ordinary _ := ⟨rfl, rfl⟩

/-- The loop of `reduce` computes a left fold. -/
lemma computedBy_reduceStep (hf : f.Settled) :
    (reducing F).ComputedBy f "result" reduceStep where
  eval {depth st st' i loop items a x} hround ha hx hcall := by
    have hacc : (Expr.ident "result").evalWith (evalBlock depth) i st = .ok a st := by
      rw [Expr.evalWith]
      exact nameValue_of_lookup hround.acc ha.settled
    exact (Expr.evalWith_callName (by decide) (nameValue_of_lookup hround.f hf)
      (evalExprs_cons hacc (evalExprs_singleton (hround.eval_first hx)))).trans hcall
  ordinary h := h.ordinary

end Folding

/-! ## The definitions -/

/-- The lines of the text that defines `map` and `reduce`. -/
def foldLines : List String :=
  ["let map = fn(arr, f) \x7b\n",
    "    let iter = fn(arr, accumulated) \x7b\n",
    "        if (len(arr) == 0) \x7b\n",
    "            accumulated\n",
    "        \x7d else \x7b\n",
    "            iter(rest(arr), push(accumulated, f(first(arr))));\n",
    "        \x7d\n",
    "    \x7d;\n",
    "    iter(arr, []);\n",
    "\x7d;\n",
    "\n",
    "let reduce = fn(arr, initial, f) \x7b\n",
    "    let iter = fn(arr, result) \x7b\n",
    "        if (len(arr) == 0) \x7b\n",
    "            result\n",
    "        \x7d else \x7b\n",
    "            iter(rest(arr), f(result, first(arr)));\n",
    "        \x7d\n",
    "    \x7d;\n",
    "    iter(arr, initial);\n",
    "\x7d;\n"]

/-- The text that defines `map` and `reduce`. -/
def foldDefinitions : String := String.join foldLines

/-- The program that the text is. -/
def foldProgram : Program :=
  [.letBind "map" (.fnLit ["arr", "f"] (loopDefinition "accumulated" mapStep (.array []))),
    .letBind "reduce" (.fnLit ["arr", "initial", "f"]
      (loopDefinition "result" reduceStep (.ident "initial")))]

/-- The text is read as the program. -/
lemma parse_foldDefinitions : parse foldDefinitions = .ok foldProgram := by
  -- The characters are taken line by line, since they are costly to compute for the whole text.
  have hlexemes : lexemes foldDefinitions =
      (Cursor.tokens ⟨0, foldLines.flatMap String.toList⟩).map Token.toLexeme := by
    rw [lexemes, scan, Cursor.start, foldDefinitions, String.toList_join]
  refine parse_eq_ok_of_toOption ?_
  rw [parse, hlexemes]
  decide +kernel

/-- The function that is bound to `map`. -/
def mapFunction : Closure :=
  ⟨0, ["arr", "f"], loopDefinition "accumulated" mapStep (.array []), 0⟩

/-- The function that is bound to `reduce`. -/
def reduceFunction : Closure :=
  ⟨1, ["arr", "initial", "f"], loopDefinition "result" reduceStep (.ident "initial"), 0⟩

namespace Session

/-- A session in which `map` and `reduce` are defined and nothing else. -/
def withFolds : Session where
  store := ⟨#[⟨[("map", .function mapFunction), ("reduce", .function reduceFunction)], none⟩,
    ⟨[], none⟩], 2, ""⟩
  globals := 0
  macros := 1

/-- **The text defines `map` and `reduce`.** -/
theorem run_foldDefinitions (depth : Nat) :
    ∃ v, new.run depth foldDefinitions = some (.ok v, withFolds) := by
  have hexpand : expand depth new.macros foldProgram new.store = .ok foldProgram new.store := by
    with_unfolding_all rfl
  obtain ⟨v, heval⟩ : ∃ v, foldProgram.eval depth new.globals new.store =
      .ok v withFolds.store := ⟨_, by with_unfolding_all rfl⟩
  exact ⟨v, run_of_eval parse_foldDefinitions hexpand heval⟩

end Session

open Session

/-- The definitions **stand** in a store: their names, and those of the built-in functions that they
use, mean there what they mean after the text. -/
def Store.KeepsFolds (st : Store) : Prop :=
  ∀ name ∈ ["map", "reduce"] ++ loopBuiltins.map Builtin.name,
    st.lookup withFolds.globals name = withFolds.store.lookup withFolds.globals name

/-- The arguments of a call have been evaluated where the definitions stand, and they still do. -/
structure Store.Prepares (st : Store) (args : List Expr) (vs : List Value) (st' : Store) :
    Prop where
  /-- The store is well-formed. -/
  wellFormed : st.WellFormed
  /-- The definitions stand. -/
  keeps : st.KeepsFolds
  /-- The arguments have these values, at some depth. -/
  eval : ∃ depth, evalExprs (evalBlock depth) withFolds.globals args st = .ok vs st'
  /-- The definitions still stand. -/
  keeps_after : st'.KeepsFolds

namespace Store

variable {st st' : Store} {args : List Expr} {vs : List Value}

/-- Where the definitions stand, the scope of programs has been made, `map` and `reduce` are bound
and no built-in function is hidden. -/
lemma KeepsFolds.bound (h : st.KeepsFolds) :
    st.lookup withFolds.globals "map" = some (.function mapFunction) ∧
      st.lookup withFolds.globals "reduce" = some (.function reduceFunction) ∧
      st.HidesNone withFolds.globals := by
  refine ⟨(h _ (by decide)).trans (lookup_of_bound rfl),
    (h _ (by decide)).trans (lookup_of_bound rfl), fun b hb => ?_⟩
  refine (h _ (List.mem_append_right _ (List.mem_map_of_mem hb))).trans ?_
  have hglobals : withFolds.store.scopes[withFolds.globals]? = some
      ⟨[("map", .function mapFunction), ("reduce", .function reduceFunction)], none⟩ := rfl
  rw [lookup_eq hglobals (by simp)]
  cases b <;> rfl

/-- Where arguments have been evaluated, the store is well-formed, and their values fit it. -/
lemma Prepares.fits (h : st.Prepares args vs st') :
    st'.WellFormed ∧ ∀ v ∈ vs, v.Fits st' := by
  obtain ⟨depth, heval⟩ := h.eval
  have hscope := lt_size_of_lookup h.keeps.bound.1
  obtain ⟨hgrows, hfits⟩ := (evalExprs_grows h.wellFormed hscope depth args).of_ok heval
  exact ⟨hgrows.wellFormed, hfits⟩

/-- The call of a function that is bound to a name, after its arguments. -/
lemma Prepares.eval_callName (h : st.Prepares args vs st') {name : String} {c : Closure}
    (hname : name ≠ "quote") (hc : st.lookup withFolds.globals name = some (.function c))
    {v : Value} {st₂ : Store}
    (happly : ∃ depth, (Value.function c).apply depth vs st' = .ok v st₂) :
    ∃ depth, (Expr.call (.ident name) args).eval depth withFolds.globals st = .ok v st₂ := by
  obtain ⟨d₁, heval⟩ := h.eval
  obtain ⟨d₂, happly⟩ := happly
  have hargs := (evalExprs_approximates fun e _ =>
    Expr.eval_approximates (Nat.le_max_left d₁ d₂) e withFolds.globals).of_ok heval
  refine ⟨max d₁ d₂, ?_⟩
  rw [Expr.eval, Expr.evalWith_callName hname (nameValue_of_lookup hc rfl) hargs]
  exact Value.apply_of_le (Nat.le_max_right d₁ d₂) happly

end Store

/-! ## Calls in later stores -/

section

variable {st : Store} {f : Value} {items : List Value}

/-- Calls that yield plain data from a store yield the same from every later store. -/
lemma Value.yields_later {calls : List (List Value × Value)} (hst : st.WellFormed)
    (hf : f.Fits st) (hargs : ∀ call ∈ calls, ∀ v ∈ call.1, v.Fits st)
    (h : ∀ call ∈ calls, f.Yields st call.1 call.2) :
    ∀ call ∈ calls, ∀ later, st.Extends later → f.Yields later call.1 call.2 :=
  fun call hcall _ hext => (h call hcall).of_extends hst hf (hargs call hcall) hext

/-- What the calls of a mapping are given fits. -/
lemma fits_mapCalls (G : Value → Value) (hitems : ∀ x ∈ items, x.Fits st) :
    ∀ call ∈ mapCalls G items, ∀ v ∈ call.1, v.Fits st := by
  intro call hcall
  obtain ⟨x, hx, rfl⟩ := List.mem_map.mp hcall
  exact List.forall_mem_singleton.mpr (hitems x hx)

/-- What the calls of a left fold are given fits, if they yield plain data. -/
lemma fits_calls_reducing {F : Value → Value → Value} {init : Value} (hst : st.WellFormed)
    (hf : f.Fits st) (hinit : init.Fits st) (hitems : ∀ x ∈ items, x.Fits st)
    (h : ∀ call ∈ (Folding.reducing F).calls init items, f.Yields st call.1 call.2) :
    ∀ call ∈ (Folding.reducing F).calls init items, ∀ v ∈ call.1, v.Fits st := by
  induction items generalizing init with
  | nil => exact List.forall_mem_nil _
  | cons x items ih =>
    rw [List.forall_mem_cons] at hitems
    rw [Folding.calls, List.forall_mem_cons] at h ⊢
    have hargs : ∀ v ∈ [init, x], v.Fits st :=
      List.forall_mem_cons.mpr ⟨hinit, List.forall_mem_singleton.mpr hitems.1⟩
    exact ⟨hargs, ih (h.1.fits hst hf hargs) hitems.2 h.2⟩

end

/-! ## What the functions compute -/

section

variable {st st' : Store} {args : List Expr} {items : List Value} {f : Value}

/-- A call of `map` yields the results of its function in an array. -/
lemma Store.Prepares.eval_map (h : st.Prepares args [.array items, f] st')
    (hlen : items.length < 2 ^ 64) (hitems : ∀ x ∈ items, x.Settled) (hf : f.Settled)
    {G : Value → Value} (hcalls : ∀ call ∈ mapCalls G items, f.Yields st' call.1 call.2) :
    ∃ depth after, (Expr.call (.ident "map") args).eval depth withFolds.globals st =
        .ok (.array (items.map G)) after ∧ f.MakesCalls (mapCalls G items) st' after := by
  obtain ⟨hst, hfits⟩ := h.fits
  rw [List.forall_mem_cons, List.forall_mem_singleton] at hfits
  have hitemsFit : ∀ x ∈ items, x.Fits st' := fun x hx => hfits.1.of_holds (.item hx (.self x))
  obtain ⟨hmap, -, hnone⟩ := h.keeps_after.bound
  have hargs : mapFunction.TakesFold [.array items, f] items f :=
    ⟨rfl, by decide, by decide, by simp [mapFunction], by simp [mapFunction]⟩
  have hlater := Value.yields_later hst hfits.2 (fits_mapCalls G hitemsFit) hcalls
  rw [← Folding.calls_mapping []] at hlater
  obtain ⟨depth, after, happly, hmakes⟩ := Folding.exists_apply (Folding.computedBy_mapStep hf)
    (by decide) rfl hargs (Store.lt_size_of_lookup hmap) hnone
    (fun depth => by rw [Expr.eval, Expr.evalWith, evalExprs]; rfl) ⟨rfl, rfl⟩ hitems hlen hlater
  rw [Folding.foldl_mapping] at happly
  rw [Folding.calls_mapping] at hmakes
  obtain ⟨depth, heval⟩ := h.eval_callName (by decide) h.keeps.bound.1 ⟨depth, happly⟩
  exact ⟨depth, after, heval, hmakes⟩

/-- A call of `reduce` yields the left fold of its function. -/
lemma Store.Prepares.eval_reduce {init : Value} (h : st.Prepares args [.array items, init, f] st')
    (hlen : items.length < 2 ^ 64) (hitems : ∀ x ∈ items, x.Settled) (hf : f.Settled)
    (hinit : init.IsPlain) {F : Value → Value → Value}
    (hcalls : ∀ call ∈ reduceCalls F init items, f.Yields st' call.1 call.2) :
    ∃ depth after, (Expr.call (.ident "reduce") args).eval depth withFolds.globals st =
        .ok (items.foldl F init) after ∧ f.MakesCalls (reduceCalls F init items) st' after := by
  obtain ⟨hst, hfits⟩ := h.fits
  rw [List.forall_mem_cons, List.forall_mem_cons, List.forall_mem_singleton] at hfits
  have hitemsFit : ∀ x ∈ items, x.Fits st' := fun x hx => hfits.1.of_holds (.item hx (.self x))
  obtain ⟨-, hreduce, hnone⟩ := h.keeps_after.bound
  have hargs : reduceFunction.TakesFold [.array items, init, f] items f :=
    ⟨rfl, by decide, by decide, by simp [reduceFunction], by simp [reduceFunction]⟩
  have hstart : ("initial", init) ∈ reduceFunction.params.zip [.array items, init, f] := by
    simp [reduceFunction]
  rw [← Folding.calls_reducing] at hcalls ⊢
  have hlater := Value.yields_later hst hfits.2.2
    (fits_calls_reducing hst hfits.2.2 hfits.2.1 hitemsFit hcalls) hcalls
  obtain ⟨depth, after, happly, hmakes⟩ := Folding.exists_apply (Folding.computedBy_reduceStep hf)
    (by decide) rfl hargs (Store.lt_size_of_lookup hreduce) hnone
    (fun depth => by
      rw [Expr.eval, Expr.evalWith]
      exact nameValue_of_lookup (hargs.lookup_withLoop hstart) hinit.ordinary.settled)
    hinit.ordinary hitems hlen hlater
  obtain ⟨depth, heval⟩ := h.eval_callName (by decide) h.keeps.bound.2.1 ⟨depth, happly⟩
  exact ⟨depth, after, heval, hmakes⟩

/-- **Recursion through closures computes folds.** The text defines `map` and `reduce`. Wherever the
definitions stand, let the arguments of a call be an array, a function, and for `reduce` plain data
to start with, where no item of the array is an error. If the function yields plain data for what it
is called with, the call of `map` ends with the array of these results in the order of the items,
and the call of `reduce` with the left fold. The function is called exactly once for each item, from
left to right, and apart from that only one function and some scopes are made. Lengths are words of
64 bits, so an array has less than `2 ^ 64` items.

**Proof sketch.** Both functions run a loop, by induction on what is left of the array. Calls change
no scope that was there before; so the function yields in each round what it yields before the
first, as plain data do not depend on the store. -/
theorem eval_folds :
    (∀ depth, ∃ v, new.run depth foldDefinitions = some (.ok v, withFolds)) ∧
      ∀ {st st' : Store} {args : List Expr} {items : List Value} {f : Value},
        items.length < 2 ^ 64 → (∀ x ∈ items, x.Settled) → f.Settled →
        (∀ {G : Value → Value}, st.Prepares args [.array items, f] st' →
          (∀ call ∈ mapCalls G items, f.Yields st' call.1 call.2) →
          ∃ depth after, (Expr.call (.ident "map") args).eval depth withFolds.globals st =
              .ok (.array (items.map G)) after ∧ f.MakesCalls (mapCalls G items) st' after) ∧
        ∀ {F : Value → Value → Value} {init : Value}, st.Prepares args [.array items, init, f] st' →
          init.IsPlain → (∀ call ∈ reduceCalls F init items, f.Yields st' call.1 call.2) →
          ∃ depth after, (Expr.call (.ident "reduce") args).eval depth withFolds.globals st =
              .ok (items.foldl F init) after ∧ f.MakesCalls (reduceCalls F init items) st' after :=
  ⟨run_foldDefinitions, fun hlen hitems hf =>
    ⟨fun h hcalls => h.eval_map hlen hitems hf hcalls,
      fun h hinit hcalls => h.eval_reduce hlen hitems hf hinit hcalls⟩⟩

end

/-- The scopes of the session with the definitions are well-formed. -/
lemma Session.wellFormed_withFolds : withFolds.WellFormed := by
  obtain ⟨v, hrun⟩ := run_foldDefinitions 0
  let step : Step := ⟨0, foldDefinitions, new, .ok v, withFolds⟩
  have hruns : step.Runs := hrun
  exact hruns.wellFormed wellFormed_new

/-- Integers are plain data. -/
lemma isPlain_int (n : Int64) : (Value.int n).IsPlain := by
  intro w hw
  cases hw
  simp [Value.type]

/-- The function `fn(x) { x * 2 }`, if it is made right after the definitions. -/
def double : Closure := ⟨2, ["x"], [.expr (.binary .mul (.ident "x") (.int 2))], 0⟩

/-- The function `fn(a, x) { a - x }`, if it is made right after the definitions. -/
def subtract : Closure :=
  ⟨2, ["a", "x"], [.expr (.binary .sub (.ident "a") (.ident "x"))], 0⟩

/-- What doubling yields. -/
def doubled : Value → Value
  | .int n => .int (n * 2)
  | _ => .null

/-- What subtracting yields. -/
def minus : Value → Value → Value
  | .int m, .int n => .int (m - n)
  | _, _ => .null

/-- `map([1, 2, 3], fn(x) { x * 2 })` and `reduce([1, 2, 3], 10, fn(a, x) { a - x })`. -/
theorem eval_folds_numbers :
    let items : List Value := [.int 1, .int 2, .int 3]
    let numbers : Expr := .array [.int 1, .int 2, .int 3]
    let st := withFolds.store
    let st' : Store := { st with closures := 3 }
    items.length < 2 ^ 64 ∧ (∀ x ∈ items, x.Settled) ∧
    (st.Prepares [numbers, .fnLit double.params double.body] [.array items, .function double] st' ∧
      (∀ call ∈ mapCalls doubled items, (Value.function double).Yields st' call.1 call.2) ∧
      ∃ depth after, (Expr.call (.ident "map") [numbers, .fnLit double.params double.body]).eval
          depth withFolds.globals st = .ok (.array [.int 2, .int 4, .int 6]) after ∧
        (Value.function double).MakesCalls (mapCalls doubled items) st' after) ∧
    (st.Prepares [numbers, .int 10, .fnLit subtract.params subtract.body]
        [.array items, .int 10, .function subtract] st' ∧
      (∀ call ∈ reduceCalls minus (.int 10) items,
        (Value.function subtract).Yields st' call.1 call.2) ∧
      ∃ depth after, (Expr.call (.ident "reduce")
          [numbers, .int 10, .fnLit subtract.params subtract.body]).eval
            depth withFolds.globals st = .ok (.int 4) after ∧
        (Value.function subtract).MakesCalls (reduceCalls minus (.int 10) items) st' after) := by
  intro items numbers st st'
  have hlen : items.length < 2 ^ 64 := by decide
  have hitems : ∀ x ∈ items, x.Settled := by simp [items, Value.Settled, Value.isError]
  have hst : st.WellFormed := wellFormed_withFolds.store
  have hkeeps : st.KeepsFolds := fun _ _ => rfl
  have hkeeps' : st'.KeepsFolds := fun name _ =>
    (st.extends_newClosure [] [] 0).lookup wellFormed_withFolds.globals_lt name
  have hmap : st.Prepares [numbers, .fnLit double.params double.body]
      [.array items, .function double] st' :=
    ⟨hst, hkeeps, ⟨0, by with_unfolding_all rfl⟩, hkeeps'⟩
  have hreduce : st.Prepares [numbers, .int 10, .fnLit subtract.params subtract.body]
      [.array items, .int 10, .function subtract] st' :=
    ⟨hst, hkeeps, ⟨0, by with_unfolding_all rfl⟩, hkeeps'⟩
  have hdouble : ∀ call ∈ mapCalls doubled items,
      (Value.function double).Yields st' call.1 call.2 := by
    have hcall (n : Int64) : (Value.function double).Yields st' [.int n] (.int (n * 2)) :=
      ⟨isPlain_int _, 1, _, by with_unfolding_all rfl⟩
    simp only [mapCalls, items, List.map_cons, List.map_nil, List.forall_mem_cons]
    exact ⟨hcall 1, hcall 2, hcall 3, List.forall_mem_nil _⟩
  have hsubtract : ∀ call ∈ reduceCalls minus (.int 10) items,
      (Value.function subtract).Yields st' call.1 call.2 := by
    have hcall (m n : Int64) :
        (Value.function subtract).Yields st' [.int m, .int n] (.int (m - n)) :=
      ⟨isPlain_int _, 1, _, by with_unfolding_all rfl⟩
    refine List.forall_mem_cons.mpr ⟨hcall 10 1, List.forall_mem_cons.mpr ⟨hcall 9 2,
      List.forall_mem_singleton.mpr (hcall 7 3)⟩⟩
  have hmapped := (eval_folds.2 (f := .function double) hlen hitems rfl).1 hmap hdouble
  have hreduced := (eval_folds.2 (f := .function subtract) hlen hitems rfl).2 hreduce
    (isPlain_int 10) hsubtract
  exact ⟨hlen, hitems, ⟨hmap, hdouble, hmapped⟩, hreduce, hsubtract, hreduced⟩

end QuoteLang
