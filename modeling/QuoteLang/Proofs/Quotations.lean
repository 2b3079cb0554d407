import QuoteLang.Proofs.Depth
import QuoteLang.Proofs.Visits

set_option relaxedAutoImplicit false
set_option autoImplicit false

/-!
# Quotations

A quotation hands over the outermost names, literals, calls and macro literals of an expression, in
the order of the source. A call of `unquote` with one argument is answered by the syntax that stands
for the value of the argument, and everything else by itself. The arguments are evaluated in the
scope of the quotation, so what one of them binds is seen by those after it. The first of them that
ends with a fault, or with a value that no syntax stands for, ends the quotation.

Calls may be nested in the arguments as deeply as they like: that a quotation ends means that it
does so at some depth.

## Main definitions

* `Value.Becomes` — the syntax that stands for a value.
* `Splice`, `Splices` — what a quotation puts in for an expression, and for those of a list.
* `SpliceFails` — an argument of `unquote` that ends the quotation.
* `quoteCall`, `unquoteCall` — calls of `quote` and `unquote`.

## Main results

* `splice_iff`, `spliceFails_iff` — what stands for an expression in a quotation.
* `splices_iff` — what stands for the expressions of a list.
* `Expr.quote_splices` — how a quotation ends.
-/

namespace QuoteLang

open Run (bind_eq_ok bind_eq_fault mapM_eq_fault)

/-! ## What a quotation puts in -/

/-- The syntax that stands for a value: a literal for an integer, a truth value or a string, and the
quoted expression for a quotation. No syntax stands for any other value. -/
inductive Value.Becomes : Value → Expr → Prop
  /-- An integer literal, which may be negative. -/
  | int (n : Int64) : Becomes (.int n) (.int n)
  /-- A truth value. -/
  | bool (b : Bool) : Becomes (.bool b) (.bool b)
  /-- A string literal. -/
  | str (s : String) : Becomes (.str s) (.str s)
  /-- The expression that is quoted. -/
  | quote (e : Expr) : Becomes (.quote e) e

section

variable (scope : ScopeId)

/-- What a quotation in a scope puts in for an expression that is handed over, and the store after
that. -/
inductive Splice : Expr → Store → Expr → Store → Prop
  /-- What is no call of `unquote` with one argument is kept. -/
  | kept {x : Expr} {st : Store} (hx : x.unquoted? = none) : Splice x st x st
  /-- The argument of `unquote` is evaluated in the scope of the quotation. -/
  | unquote {depth : Nat} {x arg a : Expr} {v : Value} {st st' : Store}
      (hx : x.unquoted? = some arg) (hv : arg.eval depth scope st = .ok v st')
      (ha : v.Becomes a) : Splice x st a st'

/-- What a quotation puts in for the expressions of a list, each of which is met once, one after the
other. -/
inductive Splices : List Expr → Store → List Expr → Store → Prop
  /-- There are none. -/
  | nil (st : Store) : Splices [] st [] st
  /-- The first, and then the others. -/
  | cons {x a : Expr} {xs as : List Expr} {st st₁ st' : Store} (first : Splice scope x st a st₁)
      (rest : Splices xs st₁ as st') : Splices (x :: xs) st (a :: as) st'

/-- An expression that is handed over **ends the quotation** with a fault. -/
inductive SpliceFails : Expr → Store → Fault → Store → Prop
  /-- The argument of `unquote` ends with the fault. -/
  | failed {depth : Nat} {x arg : Expr} {f : Fault} {st st' : Store}
      (hx : x.unquoted? = some arg) (hf : arg.eval depth scope st = .fault f st') :
      SpliceFails x st f st'
  /-- No syntax stands for the value of the argument. -/
  | notSyntax {depth : Nat} {x arg : Expr} {v : Value} {st st' : Store}
      (hx : x.unquoted? = some arg) (hv : arg.eval depth scope st = .ok v st')
      (ha : ∀ a, ¬v.Becomes a) : SpliceFails x st (.notSyntax v.type) st'

end

/-! ## One expression -/

section

variable {scope : ScopeId} {st st' : Store} {x a : Expr} {f : Fault}

/-- A value is turned into the syntax that stands for it. -/
lemma toSyntax_eq_ok_iff {v : Value} :
    toSyntax v st = .ok a st' ↔ v.Becomes a ∧ st' = st := by
  constructor
  · intro h
    cases v <;> cases h <;> exact ⟨by constructor, rfl⟩
  · rintro ⟨hv, rfl⟩
    cases hv <;> rfl

/-- A value that no syntax stands for is a fault, which names its type. -/
lemma toSyntax_eq_fault_iff {v : Value} :
    toSyntax v st = .fault f st' ↔ (∀ a, ¬v.Becomes a) ∧ f = .notSyntax v.type ∧ st' = st := by
  constructor
  · intro h
    cases v <;> cases h <;> exact ⟨nofun, rfl, rfl⟩
  · rintro ⟨hv, rfl, rfl⟩
    cases v
    case int | bool | str | quote => exact absurd (by constructor) (hv _)
    all_goals rfl

/-- What is no call of `unquote` stands for itself. -/
lemma spliceWith_of_eq_none (hx : x.unquoted? = none) (deeper : Deeper) :
    spliceWith deeper scope x = pure x := by
  rw [spliceWith, hx]

/-- For a call of `unquote` stands the syntax for the value of its argument. -/
lemma spliceWith_of_eq_some {arg : Expr} (hx : x.unquoted? = some arg) (depth : Nat) :
    spliceWith (evalBlock (depth + 1)) scope x = (arg.eval depth scope >>= toSyntax) := by
  rw [spliceWith, hx]
  show (evalStmts (evalBlock depth) scope .null [.expr arg] >>= toSyntax) = _
  rw [evalStmts_expr]
  rfl

/-- **What stands for an expression in a quotation** at some depth is what the quotation puts in. -/
theorem splice_iff :
    (∃ depth, spliceWith (evalBlock depth) scope x st = .ok a st') ↔ Splice scope x st a st' := by
  constructor
  · rintro ⟨depth, h⟩
    cases hx : x.unquoted? with
    | none =>
      rw [spliceWith_of_eq_none hx] at h
      cases h
      exact .kept hx
    | some arg =>
      cases depth with
      | zero =>
        rw [spliceWith, hx] at h
        cases h
      | succ depth =>
        rw [spliceWith_of_eq_some hx] at h
        obtain ⟨v, st₁, hv, hsyntax⟩ := bind_eq_ok.mp h
        obtain ⟨ha, rfl⟩ := toSyntax_eq_ok_iff.mp hsyntax
        exact .unquote hx hv ha
  · intro h
    cases h with
    | kept hx => exact ⟨0, by rw [spliceWith_of_eq_none hx]; rfl⟩
    | @unquote depth _ _ _ v _ _ hx hv ha =>
      refine ⟨depth + 1, ?_⟩
      rw [spliceWith_of_eq_some hx]
      exact bind_eq_ok.mpr ⟨v, st', hv, toSyntax_eq_ok_iff.mpr ⟨ha, rfl⟩⟩

/-- **A quotation ends at an expression** at some depth exactly if that is a call of `unquote` that
ends it. -/
theorem spliceFails_iff :
    (∃ depth, spliceWith (evalBlock depth) scope x st = .fault f st') ↔
      SpliceFails scope x st f st' := by
  constructor
  · rintro ⟨depth, h⟩
    cases hx : x.unquoted? with
    | none =>
      rw [spliceWith_of_eq_none hx] at h
      cases h
    | some arg =>
      cases depth with
      | zero =>
        rw [spliceWith, hx] at h
        cases h
      | succ depth =>
        rw [spliceWith_of_eq_some hx] at h
        rcases bind_eq_fault.mp h with hf | ⟨v, st₁, hv, hf⟩
        · exact .failed hx hf
        · obtain ⟨ha, rfl, rfl⟩ := toSyntax_eq_fault_iff.mp hf
          exact .notSyntax hx hv ha
  · intro h
    cases h with
    | @failed depth _ _ _ _ _ hx hf =>
      refine ⟨depth + 1, ?_⟩
      rw [spliceWith_of_eq_some hx]
      exact bind_eq_fault.mpr (.inl hf)
    | @notSyntax depth _ _ v _ _ hx hv ha =>
      refine ⟨depth + 1, ?_⟩
      rw [spliceWith_of_eq_some hx]
      exact bind_eq_fault.mpr (.inr ⟨v, st', hv, toSyntax_eq_fault_iff.mpr ⟨ha, rfl, rfl⟩⟩)

/-- What stands for an expression is the same at a larger depth. -/
lemma splice_approximates {d d' : Nat} (h : d ≤ d') (x : Expr) :
    (spliceWith (evalBlock d) scope x).Approximates (spliceWith (evalBlock d') scope x) :=
  spliceWith_approximates (evalBlock_approximates h) x

end

/-! ## The expressions of a list -/

section

variable {scope : ScopeId} {st st₁ st' : Store} {xs as : List Expr}

/-- What stands for the expressions of a list is the same at a larger depth. -/
lemma mapM_splice_approximates {d d' : Nat} (h : d ≤ d') (xs : List Expr) :
    (xs.mapM (spliceWith (evalBlock d) scope)).Approximates
      (xs.mapM (spliceWith (evalBlock d') scope)) :=
  .mapM fun x _ => splice_approximates h x

/-- There are as many answers as expressions. -/
lemma Splices.length_eq (h : Splices scope xs st as st') : as.length = xs.length := by
  induction h with
  | nil => rfl
  | cons _ _ ih => rw [List.length_cons, ih, List.length_cons]

/-- **What stands for the expressions of a list** at some depth is what the quotation puts in.

**Proof sketch.** Each argument has a depth of its own. The largest of them is enough for all. -/
theorem splices_iff :
    (∃ depth, xs.mapM (spliceWith (evalBlock depth) scope) st = .ok as st') ↔
      Splices scope xs st as st' := by
  constructor
  · rintro ⟨depth, h⟩
    induction xs generalizing as st with
    | nil =>
      rw [List.mapM_nil] at h
      cases h
      exact .nil _
    | cons x xs ih =>
      rw [List.mapM_cons] at h
      obtain ⟨a, st₁, ha, h⟩ := bind_eq_ok.mp h
      obtain ⟨as, st₂, has, h⟩ := bind_eq_ok.mp h
      cases h
      exact .cons (splice_iff.mp ⟨depth, ha⟩) (ih has)
  · intro h
    induction h with
    | nil st => exact ⟨0, by rw [List.mapM_nil]; rfl⟩
    | @cons x a xs as st st₁ st' first _ ih =>
      obtain ⟨d, ha⟩ := splice_iff.mpr first
      obtain ⟨d', has⟩ := ih
      refine ⟨max d d', ?_⟩
      rw [List.mapM_cons]
      have ha := (splice_approximates (Nat.le_max_left d d') x).of_ok ha
      have has := (mapM_splice_approximates (Nat.le_max_right d d') xs).of_ok has
      exact bind_eq_ok.mpr ⟨a, st₁, ha, bind_eq_ok.mpr ⟨as, st', has, rfl⟩⟩

/-- **A quotation ends in a list** at some depth exactly if one of the expressions ends it, after
answers for all before that one. -/
theorem splices_fail_iff {f : Fault} :
    (∃ depth, xs.mapM (spliceWith (evalBlock depth) scope) st = .fault f st') ↔
      ∃ before x after answers st₁, xs = before ++ x :: after ∧
        Splices scope before st answers st₁ ∧ SpliceFails scope x st₁ f st' := by
  constructor
  · rintro ⟨depth, h⟩
    obtain ⟨before, x, after, answers, st₁, hxs, hbefore, hx⟩ := mapM_eq_fault.mp h
    exact ⟨before, x, after, answers, st₁, hxs, splices_iff.mp ⟨depth, hbefore⟩,
      spliceFails_iff.mp ⟨depth, hx⟩⟩
  · rintro ⟨before, x, after, answers, st₁, hxs, hbefore, hx⟩
    obtain ⟨d, hbefore⟩ := splices_iff.mpr hbefore
    obtain ⟨d', hx⟩ := spliceFails_iff.mpr hx
    have hbefore := (mapM_splice_approximates (Nat.le_max_left d d') before).of_ok hbefore
    have hx := (splice_approximates (Nat.le_max_right d d') x).of_fault hx
    exact ⟨max d d', mapM_eq_fault.mpr ⟨before, x, after, answers, st₁, hxs, hbefore, hx⟩⟩

/-- **Nothing is evaluated after the expression that ends a quotation**: what is evaluated for a
list is evaluated for the list up to this expression.

**Proof sketch.** Induction on the expressions before it. Whatever the depth is, each of them is
answered in the one way in which it is answered at all. -/
theorem Splices.reaches_of_fails {before after answers : List Expr} {x a : Expr} {f : Fault}
    {depth : Nat} {Q : Point} (hbefore : Splices scope before st answers st₁)
    (hx : SpliceFails scope x st₁ f st') (hQ : Q.node = .expr a)
    (h : Point.Reaches ⟨depth, scope, .splices (before ++ x :: after), st⟩ Q) :
    Point.Reaches ⟨depth, scope, .splices (before ++ [x]), st⟩ Q := by
  induction hbefore with
  | nil st₁ =>
    rcases Relation.ReflTransGen.cases_head h with rfl | ⟨R, hpart | hpart, hreach⟩
    · cases hQ
    · cases hpart with
      | unquoted harg => exact .head (.inl (.unquoted harg)) hreach
    · cases hpart with
      | restSplices hok =>
        obtain ⟨d, hfault⟩ := spliceFails_iff.mpr hx
        have hok := (splice_approximates (Nat.le_max_left depth d) x).of_ok hok
        rw [(splice_approximates (Nat.le_max_right depth d) x).of_fault hfault] at hok
        cases hok
  | @cons y b ys bs st st₂ st₁ first _ ih =>
    rcases Relation.ReflTransGen.cases_head h with rfl | ⟨R, hpart | hpart, hreach⟩
    · cases hQ
    · cases hpart with
      | unquoted harg => exact .head (.inl (.unquoted harg)) hreach
    · cases hpart with
      | restSplices hok =>
        obtain ⟨d, hfirst⟩ := splice_iff.mpr first
        have hsame := (splice_approximates (Nat.le_max_left depth d) y).of_ok hok
        rw [(splice_approximates (Nat.le_max_right depth d) y).of_ok hfirst] at hsame
        cases hsame
        exact .head (.inr (.restSplices hok)) (ih hx hreach)

end

/-! ## Quotations -/

/-- A call of `quote` with one argument. -/
def quoteCall (e : Expr) : Expr :=
  .call (.ident "quote") [e]

/-- A call of `unquote` with one argument. -/
def unquoteCall (e : Expr) : Expr :=
  .call (.ident "unquote") [e]

/-- A run that is decided ends with a value, or with the error of a fault. -/
lemma Outcome.value?_eq_some_iff {o : Outcome Fault Value} {v : Value} {st : Store} :
    o.value? = some (v, st) ↔ o = .ok v st ∨ ∃ f, v = .error f.message ∧ o = .fault f st := by
  cases o with
  | ok w st₁ => simp [value?]
  | fault f st₁ =>
    constructor
    · rintro ⟨⟩
      exact .inr ⟨f, rfl, rfl⟩
    · rintro (h | ⟨_, rfl, h⟩)
      · cases h
      · cases h
        rfl
  | tooDeep => simp [value?]

section

variable {e : Expr} {scope : ScopeId} {st st' : Store} {v : Value}

/-- A call of `quote` ends as the quotation of its argument does. -/
lemma eval_quoteCall (e : Expr) (depth : Nat) (scope : ScopeId) :
    (quoteCall e).eval depth scope = e.quote depth scope := by
  simp only [quoteCall, Expr.eval, Expr.evalWith, Expr.isQuoteName, beq_self_eq_true, if_true]
  rfl

/-- A quotation is made of the answers for what it hands over. -/
lemma Expr.quote_eq (e : Expr) (depth : Nat) (scope : ScopeId) :
    e.quote depth scope = (e.handedOver.mapM (spliceWith (evalBlock depth) scope) >>=
      fun answers => pure (.quote (e.fill answers))) := by
  rw [quote, quoteWith, replaceM_eq, bind_assoc]
  rfl

/-- A quotation ends with a value exactly if all that it hands over is answered. -/
lemma Expr.quote_eq_ok_iff : (∃ depth, e.quote depth scope st = .ok v st') ↔
    ∃ visited answers e', v = .quote e' ∧ e.Replaced visited answers e' ∧
      Splices scope visited st answers st' := by
  simp only [quote_eq, bind_eq_ok]
  constructor
  · rintro ⟨depth, answers, st₁, hanswers, h⟩
    cases h
    have hsplices := splices_iff.mp ⟨depth, hanswers⟩
    refine ⟨e.handedOver, answers, e.fill answers, rfl, ?_, hsplices⟩
    exact (replaced_determined_aux.1 e _ _ _).mpr ⟨rfl, hsplices.length_eq, rfl⟩
  · rintro ⟨visited, answers, e', rfl, hreplaced, hsplices⟩
    obtain ⟨rfl, -, rfl⟩ := (replaced_determined_aux.1 e _ _ _).mp hreplaced
    obtain ⟨depth, hanswers⟩ := splices_iff.mpr hsplices
    exact ⟨depth, answers, st', hanswers, rfl⟩

/-- A quotation ends with a fault exactly if it does so along the list of what it hands over. -/
lemma Expr.quote_eq_fault_iff {f : Fault} :
    (∃ depth, e.quote depth scope st = .fault f st') ↔
      ∃ before x after answers st₁, e.handedOver = before ++ x :: after ∧
        Splices scope before st answers st₁ ∧ SpliceFails scope x st₁ f st' := by
  rw [← splices_fail_iff]
  refine exists_congr fun depth => ?_
  rw [quote_eq, bind_eq_fault]
  constructor
  · rintro (h | ⟨_, _, _, h⟩)
    · exact h
    · cases h
  · exact .inl

/-- A quotation that is unquoted in a quotation is that quotation. -/
lemma eval_quoteCall_unquoteCall (e : Expr) (depth : Nat) (scope : ScopeId) :
    (quoteCall (unquoteCall (quoteCall e))).eval (depth + 1) scope =
      (quoteCall e).eval depth scope := by
  have hcall : (unquoteCall (quoteCall e)).IsHandedOver := trivial
  have hunquoted : (unquoteCall (quoteCall e)).unquoted? = some (quoteCall e) := by
    simp only [unquoteCall, Expr.unquoted?, if_true]
  rw [eval_quoteCall, Expr.quote, quoteWith, Expr.replaceM_of_isHandedOver _ hcall,
    spliceWith_of_eq_some hunquoted, eval_quoteCall, Expr.quote, quoteWith]
  simp only [bind_assoc, pure_bind, toSyntax]

/-- **How a quotation ends.** What the outermost names, literals, calls and macro literals of an
expression are answered by is put in, in the order of the source, each of them being met once. The
quotation ends with the expression in which the answers are put in, if all of them are answered, and
with the error of the first that fails. After that one nothing is evaluated.

A call of `quote` ends in this way, and a quotation that is unquoted in a quotation is that
quotation. -/
theorem Expr.quote_splices (e : Expr) (scope : ScopeId) (st : Store) :
    (∀ v st', (∃ depth, (e.quote depth scope st).value? = some (v, st')) ↔
      (∃ visited answers e', v = .quote e' ∧ e.Replaced visited answers e' ∧
        Splices scope visited st answers st') ∨
      ∃ before x after answers st₁ f, v = .error f.message ∧
        e.handedOver = before ++ x :: after ∧ Splices scope before st answers st₁ ∧
        SpliceFails scope x st₁ f st' ∧
        ∀ depth Q a, Q.node = .expr a →
          Point.Reaches ⟨depth, scope, .splices (before ++ x :: after), st⟩ Q →
          Point.Reaches ⟨depth, scope, .splices (before ++ [x]), st⟩ Q) ∧
    (∀ depth, (quoteCall e).eval depth scope st = e.quote depth scope st) ∧
    ∀ depth, (quoteCall (unquoteCall (quoteCall e))).eval (depth + 1) scope st =
      (quoteCall e).eval depth scope st := by
  refine ⟨fun v st' => ?_, fun depth => by rw [eval_quoteCall], fun depth => by
    rw [eval_quoteCall_unquoteCall]⟩
  simp only [Outcome.value?_eq_some_iff, exists_or]
  refine or_congr quote_eq_ok_iff ?_
  constructor
  · rintro ⟨depth, f, rfl, hf⟩
    obtain ⟨before, x, after, answers, st₁, hsplit, hbefore, hx⟩ :=
      quote_eq_fault_iff.mp ⟨depth, hf⟩
    exact ⟨before, x, after, answers, st₁, f, rfl, hsplit, hbefore, hx,
      fun _ _ _ hQ hreach => hbefore.reaches_of_fails hx hQ hreach⟩
  · rintro ⟨before, x, after, answers, st₁, f, rfl, hsplit, hbefore, hx, -⟩
    obtain ⟨depth, hf⟩ :=
      quote_eq_fault_iff.mpr ⟨before, x, after, answers, st₁, hsplit, hbefore, hx⟩
    exact ⟨depth, f, rfl, hf⟩

end

/-- An argument of `unquote` sees what those before it have bound. An array ends a quotation, and
the argument after it, which would write a line, is not evaluated. -/
theorem Expr.quote_splices_lets :
    let st : Store := ⟨#[⟨[], none⟩], 0, ""⟩
    let binds := unquoteCall (.cond (.bool true) [.letBind "x" (.int 1), .expr (.ident "x")] none)
    let sees : Expr := .array [binds, unquoteCall (.ident "x")]
    let wrong := unquoteCall (.array [])
    let stops : Expr := .array [wrong, unquoteCall (.call (.ident "puts") [.int 1])]
    (∃ st' visited answers,
      (sees.quote 2 0 st).value? = some (.quote (.array [.int 1, .int 1]), st') ∧
      sees.Replaced visited answers (.array [.int 1, .int 1]) ∧
      Splices 0 visited st answers st') ∧
    ∃ before x after answers st₁ f,
      (stops.quote 2 0 st).value? = some (.error f.message, st) ∧
      f.message = "unquote: cannot convert ARRAY to a syntax node" ∧
      stops.handedOver = before ++ x :: after ∧ Splices 0 before st answers st₁ ∧
      SpliceFails 0 x st₁ f st ∧
      ∀ depth Q a, Q.node = .expr a →
        Point.Reaches ⟨depth, 0, .splices (before ++ x :: after), st⟩ Q →
        Point.Reaches ⟨depth, 0, .splices (before ++ [x]), st⟩ Q := by
  intro st binds sees wrong stops
  let bound : Store := ⟨#[⟨[("x", .int 1)], none⟩], 0, ""⟩
  have hsees : (sees.quote 2 0 st).value? = some (.quote (.array [.int 1, .int 1]), bound) := by
    with_unfolding_all rfl
  have hstops : (stops.quote 2 0 st).value? =
      some (.error "unquote: cannot convert ARRAY to a syntax node", st) := by
    with_unfolding_all rfl
  constructor
  · rcases ((sees.quote_splices 0 st).1 _ _).mp ⟨2, hsees⟩ with
      ⟨visited, answers, e', hquote, hreplaced, hsplices⟩ | ⟨_, _, _, _, _, _, herror, _⟩
    · cases hquote
      exact ⟨bound, visited, answers, hsees, hreplaced, hsplices⟩
    · cases herror
  · rcases ((stops.quote_splices 0 st).1 _ _).mp ⟨2, hstops⟩ with
      ⟨_, _, _, hquote, _⟩ | ⟨before, x, after, answers, st₁, f, herror, hfails⟩
    · cases hquote
    · have hmessage := Value.error.inj herror
      exact ⟨before, x, after, answers, st₁, f, hmessage ▸ hstops, hmessage.symm, hfails⟩

end QuoteLang
