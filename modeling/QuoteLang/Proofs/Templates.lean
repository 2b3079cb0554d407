import QuoteLang.Proofs.Expansion
import QuoteLang.Proofs.Writes

set_option relaxedAutoImplicit false
set_option autoImplicit false

/-!
# Templates

A macro whose body is a single quotation is a template: the calls of `unquote` in the quotation are
its holes, and each hole names a parameter. A call of such a macro stands for the quotation with the
arguments put in the holes as they stand. Nothing is evaluated on the way but the names of the
parameters, and the arguments are not looked into.

## Main definitions

* `Expr.IsTemplate` — every hole of an expression names a parameter.
* `Expr.substitute` — an expression with arguments put in its holes.
* `Closure.IsTemplate` — the macros that are templates.

## Main results

* `Store.lookup_bindAll` — a parameter is found with its argument where a body is evaluated.
* `quoteWith_template` — the quotation of a template in such a scope.
* `expandAt_template` — a call of a template stands for the filled-in template.
-/

namespace QuoteLang

open Run

/-! ## Filling in a template -/

/-- Every call of `unquote` that is handed over has a parameter as its argument. -/
def Expr.IsTemplate (params : List String) (t : Expr) : Prop :=
  ∀ e ∈ t.handedOver, ∀ arg, e.unquoted? = some arg → ∃ p ∈ params, arg = .ident p

/-- What is put in the place of an expression that a template hands over: the argument for the
parameter that it unquotes, and otherwise the expression itself. -/
def Expr.filler (arguments : List (String × Expr)) (e : Expr) : Expr :=
  match e.unquoted? with
  | some (.ident p) => (arguments.lookup p).getD e
  | _ => e

/-- A template with arguments put in the places of its calls of `unquote`. -/
def Expr.substitute (arguments : List (String × Expr)) (t : Expr) : Expr :=
  t.fill (t.handedOver.map (filler arguments))

/-- A macro is a **template**: no parameter comes twice, and its body is the quotation of an
expression whose holes name parameters. -/
structure Closure.IsTemplate (c : Closure) (t : Expr) : Prop where
  /-- No parameter comes twice. -/
  nodup : c.params.Nodup
  /-- The body is a single quotation. -/
  body_eq : c.body = [.expr (.call (.ident "quote") [t])]
  /-- The holes name parameters. -/
  holes : t.IsTemplate c.params

/-! ## Parameters -/

/-- Binding several names changes no other name. -/
lemma Store.bound_bindAll_of_notMem {pairs : List (String × Value)} {name : String}
    (h : name ∉ pairs.map Prod.fst) (st : Store) (scope : ScopeId) :
    (st.bindAll scope pairs).bound scope name = st.bound scope name := by
  induction pairs generalizing st with
  | nil => rfl
  | cons p pairs ih =>
    rw [List.map_cons, List.mem_cons, not_or] at h
    rw [bindAll, List.foldl_cons]
    exact (ih h.2 _).trans (bound_bind_of_ne st scope h.1 p.2)

/-- Each of several names is bound to its value, if none comes twice. -/
lemma Store.bound_bindAll {pairs : List (String × Value)} {name : String} {v : Value}
    (hnodup : (pairs.map Prod.fst).Nodup) (h : (name, v) ∈ pairs) {st : Store} {scope : ScopeId}
    (hscope : scope < st.scopes.size) : (st.bindAll scope pairs).bound scope name = some v := by
  induction pairs generalizing st with
  | nil => cases h
  | cons p pairs ih =>
    rw [List.map_cons, List.nodup_cons] at hnodup
    rw [bindAll, List.foldl_cons]
    rcases List.mem_cons.mp h with rfl | h
    · exact (bound_bindAll_of_notMem hnodup.1 _ scope).trans (bound_bind_self hscope name v)
    · exact ih hnodup.2 h (Nat.lt_of_lt_of_le hscope (Framed.bind scope st p.1 p.2).size_le)

/-- What a scope itself binds is found in it. -/
lemma Store.lookup_of_bound {st : Store} {scope : ScopeId} {name : String} {v : Value}
    (h : st.bound scope name = some v) : st.lookup scope name = some v := by
  obtain ⟨s, hs, hname⟩ := Option.bind_eq_some_iff.mp h
  rw [lookup, hs]
  simp only [hname]

/-- **A parameter is found with its argument** in the scope in which a body is evaluated. -/
theorem Store.lookup_bindAll {pairs : List (String × Value)} {name : String} {v : Value}
    (hnodup : (pairs.map Prod.fst).Nodup) (h : (name, v) ∈ pairs) (st : Store) (outer : ScopeId) :
    ((st.enclose outer).2.bindAll st.scopes.size pairs).lookup st.scopes.size name = some v := by
  have hscope : st.scopes.size < (st.enclose outer).2.scopes.size := by
    simp [enclose, newScope]
  exact lookup_of_bound (bound_bindAll hnodup h hscope)

/-! ## Quotations -/

/-- Calling a function along a list, where each call leaves the store as it is. -/
lemma mapM_eq_map {ε α β : Type} {f : α → Run ε β} {g : α → β} {as : List α} {st : Store}
    (h : ∀ a ∈ as, f a st = .ok (g a) st) : as.mapM f st = .ok (as.map g) st := by
  induction as with
  | nil =>
    rw [List.mapM_nil]
    rfl
  | cons a as ih =>
    rw [List.forall_mem_cons] at h
    rw [List.mapM_cons]
    refine bind_eq_ok.mpr ⟨_, _, h.1, bind_eq_ok.mpr ⟨_, _, ih h.2, ?_⟩⟩
    rfl

section

variable {depth : Nat} {scope : ScopeId} {st : Store} {arguments : List (String × Expr)}

/-- A name that is bound to a quotation stands for the quoted expression where it is unquoted. -/
lemma spliceWith_of_lookup {p : String} {a : Expr}
    (h : st.lookup scope p = some (.quote a)) {e : Expr} (he : e.unquoted? = some (.ident p)) :
    spliceWith (evalBlock (depth + 1)) scope e st = .ok a st := by
  have hname : nameValue scope p st = .ok (.quote a) st :=
    bind_eq_ok.mpr ⟨st.lookup scope p, st, rfl, by rw [h]; rfl⟩
  have hvalue : evalBlock (depth + 1) [.expr (.ident p)] scope st = .ok (.quote a) st := by
    rw [evalBlock_succ, Block.eval, evalStmts_expr, Expr.evalWith]
    exact hname
  rw [spliceWith, he]
  exact bind_eq_ok.mpr ⟨_, _, hvalue, rfl⟩

/-- **The quotation of a template**, in a scope where each parameter is found with the quotation of
its argument, is the template with the arguments put in. -/
theorem quoteWith_template {t : Expr} (ht : t.IsTemplate (arguments.map Prod.fst))
    (hnodup : (arguments.map Prod.fst).Nodup)
    (h : ∀ p a, (p, a) ∈ arguments → st.lookup scope p = some (.quote a)) :
    quoteWith (evalBlock (depth + 1)) scope t st = .ok (.quote (t.substitute arguments)) st := by
  have hsplice : ∀ e ∈ t.handedOver,
      spliceWith (evalBlock (depth + 1)) scope e st = .ok (e.filler arguments) st := by
    intro e he
    cases harg : e.unquoted? with
    | none =>
      rw [spliceWith, harg, Expr.filler, harg]
      rfl
    | some arg =>
      obtain ⟨p, hp, rfl⟩ := ht e he arg harg
      obtain ⟨⟨_, a⟩, hmem, rfl⟩ := List.mem_map.mp hp
      rw [spliceWith_of_lookup (h _ a hmem) harg, Expr.filler, harg]
      simp only [Assoc.lookup_of_mem hnodup hmem, Option.getD_some]
  rw [quoteWith, Expr.replaceM_eq, bind_assoc]
  exact bind_eq_ok.mpr ⟨_, _, mapM_eq_map hsplice, rfl⟩

end

/-! ## Calls of templates -/

section

variable {depth : Nat} {c : Closure} {t : Expr} {args : List Expr}

/-- The store in which the body of a macro is evaluated: one scope more, which binds the parameters
to the quotations of the arguments. -/
def Store.withArguments (st : Store) (c : Closure) (args : List Expr) : Store :=
  (st.enclose c.scope).2.bindAll st.scopes.size (c.params.zip (args.map .quote))

/-- Binding several names writes nothing and makes no function. -/
lemma Store.bindAll_rest (st : Store) (scope : ScopeId) (pairs : List (String × Value)) :
    (st.bindAll scope pairs).output = st.output ∧
      (st.bindAll scope pairs).closures = st.closures := by
  induction pairs generalizing st with
  | nil => exact ⟨rfl, rfl⟩
  | cons p pairs ih => exact ih (st.bind scope p.1 p.2)

/-- The names of the arguments of a call are the parameters. -/
lemma keys_zip_params {α : Type} {as : List α} (h : as.length = c.params.length) :
    (c.params.zip as).map Prod.fst = c.params :=
  List.map_fst_zip (Nat.le_of_eq h.symm)

/-- **The body of a template** has the filled-in template as its value, and leaves nothing behind
but the scope of its parameters. -/
theorem bodyValue_template (hc : c.IsTemplate t) (hargs : args.length = c.params.length)
    (st : Store) : bodyValue (evalBlock (depth + 2)) c (args.map .quote) st =
      .ok (.quote (t.substitute (c.params.zip args))) (st.withArguments c args) := by
  have hkeys := keys_zip_params hargs
  have hvalues : ((c.params.zip (args.map Value.quote)).map Prod.fst).Nodup := by
    rw [keys_zip_params ((List.length_map _).trans hargs)]
    exact hc.nodup
  have hbody : evalBlock (depth + 2) c.body st.scopes.size (st.withArguments c args) =
      .ok (.quote (t.substitute (c.params.zip args))) (st.withArguments c args) := by
    rw [evalBlock_succ, Block.eval, hc.body_eq, evalStmts_expr, Expr.evalWith]
    refine quoteWith_template (hkeys.symm ▸ hc.holes) (hkeys.symm ▸ hc.nodup) fun p a hp => ?_
    refine Store.lookup_bindAll hvalues ?_ st c.scope
    rw [List.zip_map_right]
    exact List.mem_map.mpr ⟨(p, a), hp, rfl⟩
  exact bind_eq_ok.mpr ⟨_, _, rfl, bind_eq_ok.mpr ⟨_, _, rfl, bind_eq_ok.mpr ⟨_, _, hbody, rfl⟩⟩⟩

/-- **A call of a template stands for the filled-in template**, whatever the arguments are, and so
does the statement that consists of the call after the expansion of the program. No scope that was
there before is changed, nothing is written, and no function is made. -/
theorem expandAt_template {st : Store} {macros : ScopeId} {name : String}
    (hbound : st.lookup macros name = some (.macroFn c)) (hc : c.IsTemplate t)
    (hargs : args.length = c.params.length) (hdepth : 2 ≤ depth) :
    ∃ st' : Store, expandAt depth macros (.call (.ident name) args) st =
        .ok (t.substitute (c.params.zip args)) st' ∧
      Program.expandMacros depth macros [.expr (.call (.ident name) args)] st =
        .ok [.expr (t.substitute (c.params.zip args))] st' ∧
      st.Extends st' ∧ st'.output = st.output ∧ st'.closures = st.closures := by
  obtain ⟨depth, rfl⟩ : ∃ d, depth = d + 2 := ⟨depth - 2, by omega⟩
  have hexpand : expandAt (depth + 2) macros (.call (.ident name) args) st =
      .ok (t.substitute (c.params.zip args)) (st.withArguments c args) := by
    have hbody : (attempt (bodyValue (evalBlock (depth + 2)) c (args.map .quote)) :
        Run ExpansionFault (Except Fault Value)) st =
          .ok (.ok (.quote (t.substitute (c.params.zip args)))) (st.withArguments c args) := by
      rw [attempt, bodyValue_template hc hargs]
    rw [expandAt_of_lookup hbound, expandCall, if_pos hargs]
    exact bind_eq_ok.mpr ⟨_, _, hbody, rfl⟩
  refine ⟨_, hexpand, ?_, ?_, Store.bindAll_rest _ _ _⟩
  · rw [Program.expandMacros, Block.replaceM, replaceStmtsM, Stmt.replaceM, Expr.replaceM]
    refine bind_eq_ok.mpr ⟨_, _, bind_eq_ok.mpr ⟨_, _, hexpand, rfl⟩, ?_⟩
    rw [replaceStmtsM]
    rfl
  · exact Store.extends_of_framed_new ((Store.Extends.refl _).framed st.scopes.size)

end

/-! ## A template with two holes -/

/-- The difference of two holes, in the order that is not the one of the parameters. -/
def swapped : Expr :=
  .binary .sub (.call (.ident "unquote") [.ident "b"]) (.call (.ident "unquote") [.ident "a"])

/-- The macro of which this is the template. -/
def swap : Closure :=
  ⟨0, ["a", "b"], [.expr (.call (.ident "quote") [swapped])], 0⟩

/-- A store whose only scope binds `swap` to this macro. -/
def swapStore : Store :=
  ⟨#[⟨[("swap", .macroFn swap)], none⟩], 1, ""⟩

/-- The macro is bound there. -/
lemma lookup_swapStore : swapStore.lookup 0 "swap" = some (.macroFn swap) :=
  Store.lookup_of_bound rfl

/-- It is a template. -/
lemma isTemplate_swap : swap.IsTemplate swapped where
  nodup := by decide
  body_eq := rfl
  holes := by
    intro e he arg harg
    simp only [swapped, Expr.handedOver, List.cons_append, List.nil_append, List.mem_cons,
      List.not_mem_nil, or_false] at he
    rcases he with rfl | rfl <;>
    · cases harg
      exact ⟨_, by decide, rfl⟩

/-- Arguments that are calls of `unquote` and of the macro itself, and names of parameters, are put
in as they stand. -/
theorem expandAt_template_swap :
    let call (args : List Expr) : Expr := .call (.ident "swap") args
    let unquoted : Expr := .call (.ident "unquote") [.ident "b"]
    let nested : Expr := call [.ident "a", .ident "b"]
    let filled : Expr := .binary .sub nested unquoted
    swapStore.lookup 0 "swap" = some (.macroFn swap) ∧ swap.IsTemplate swapped ∧
      ∃ st' : Store, expandAt 2 0 (call [unquoted, nested]) swapStore = .ok filled st' ∧
        Program.expandMacros 2 0 [.expr (call [unquoted, nested])] swapStore =
          .ok [.expr filled] st' ∧
        swapStore.Extends st' ∧ st'.output = "" ∧ st'.closures = 1 := by
  intro call unquoted nested filled
  have hargs : [unquoted, nested].length = swap.params.length := rfl
  have hfilled : swapped.substitute (swap.params.zip [unquoted, nested]) = filled := by
    with_unfolding_all rfl
  have h := expandAt_template lookup_swapStore isTemplate_swap hargs (Nat.le_refl 2)
  rw [hfilled] at h
  exact ⟨lookup_swapStore, isTemplate_swap, h⟩

end QuoteLang
