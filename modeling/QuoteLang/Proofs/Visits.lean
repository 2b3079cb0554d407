import QuoteLang.Proofs.Definitions
import QuoteLang.Proofs.Substitution

set_option relaxedAutoImplicit false
set_option autoImplicit false

/-!
# The calls that an expansion visits

Expansion visits what the pass over a program hands over, in the order of the source. A call of a
name that is bound to a macro is run once, and replaced by what its body quotes, which is not
visited; all else is kept. The first call that yields no syntax ends the expansion, and no macro is
run after it. The scope of macros is the same before and after.

## Main definitions

* `Store.BindsSame` — a scope binds the same in two stores.
* `Visit`, `Visits` — an expression is visited, and the expressions of a list one after the other.
* `VisitFails` — a call of a macro is visited that yields no syntax.

## Main results

* `expandAt_eq_ok_iff`, `expandAt_eq_fault_iff` — what the expansion of an expression does.
* `mapM_expandAt_eq_ok_iff`, `mapM_expandAt_eq_fault_iff` — what the expansion along a list does.
* `Program.expandMacros_visits` — what the expansion of a program does.
-/

namespace QuoteLang

open Run

/-! ## Lists -/

/-- Calling a function along a list ends with a fault exactly if it does so on one of the items,
after values for all items before that one. -/
lemma Run.mapM_eq_fault {ε α β : Type} {f : α → Run ε β} {xs : List α} {st st' : Store} {e : ε} :
    xs.mapM f st = .fault e st' ↔ ∃ before x after bs st₁, xs = before ++ x :: after ∧
      before.mapM f st = .ok bs st₁ ∧ f x st₁ = .fault e st' := by
  induction xs generalizing st with
  | nil =>
    rw [List.mapM_nil]
    constructor
    · intro h
      cases h
    · rintro ⟨before, x, after, bs, st₁, hnil, -, -⟩
      cases before <;> cases hnil
  | cons y xs ih =>
    rw [List.mapM_cons, bind_eq_fault]
    constructor
    · rintro (hy | ⟨b, st₁, hy, h⟩)
      · exact ⟨[], y, xs, [], st, rfl, by rw [List.mapM_nil]; rfl, hy⟩
      · rcases bind_eq_fault.mp h with h | ⟨_, _, _, h⟩
        · obtain ⟨before, x, after, bs, st₂, rfl, hbefore, hx⟩ := ih.mp h
          refine ⟨y :: before, x, after, b :: bs, st₂, rfl, ?_, hx⟩
          rw [List.mapM_cons]
          exact bind_eq_ok.mpr ⟨b, st₁, hy, bind_eq_ok.mpr ⟨bs, st₂, hbefore, rfl⟩⟩
        · cases h
    · rintro ⟨before, x, after, bs, st₁, hxs, hbefore, hx⟩
      cases before with
      | nil =>
        cases hxs
        rw [List.mapM_nil] at hbefore
        cases hbefore
        exact .inl hx
      | cons z before =>
        cases hxs
        rw [List.mapM_cons, bind_eq_ok] at hbefore
        obtain ⟨b, st₂, hy, hbefore⟩ := hbefore
        obtain ⟨bs, st₃, hbefore, hpure⟩ := bind_eq_ok.mp hbefore
        cases hpure
        refine .inr ⟨b, st₂, hy, bind_eq_fault.mpr (.inl (ih.mpr ?_))⟩
        exact ⟨before, x, after, bs, st₁, rfl, hbefore, hx⟩

/-! ## The scope of macros -/

/-- A scope **binds the same** in two stores, and so do the scopes around it. -/
structure Store.BindsSame (scope : ScopeId) (st st' : Store) : Prop where
  /-- The scope itself is the same. -/
  own : st'.scopes[scope]? = st.scopes[scope]?
  /-- Every name has the same value there. -/
  lookup (name : String) : st'.lookup scope name = st.lookup scope name

namespace Store.BindsSame

variable {macros : ScopeId} {a b c : Store}

/-- Every scope binds the same in the same store. -/
lemma refl (st : Store) : BindsSame macros st st := ⟨rfl, fun _ => rfl⟩

/-- What binds the same as something that binds the same binds the same. -/
lemma trans (hab : BindsSame macros a b) (hbc : BindsSame macros b c) : BindsSame macros a c :=
  ⟨hbc.own.trans hab.own, fun name => (hbc.lookup name).trans (hab.lookup name)⟩

/-- Where a scope binds the same, the same expressions are calls of macros. -/
lemma isMacroCall_iff (h : BindsSame macros a b) (e : Expr) :
    e.IsMacroCall b macros ↔ e.IsMacroCall a macros := by
  simp only [Expr.IsMacroCall, Store.IsMacro, h.lookup]

end Store.BindsSame

/-- Where no scope has changed, every scope binds the same. -/
lemma Store.Extends.bindsSame {st st' : Store} (h : st.Extends st') {scope : ScopeId}
    (hscope : scope < st.scopes.size) : Store.BindsSame scope st st' :=
  ⟨h.scopes_eq scope hscope, h.lookup hscope⟩

/-- The scope of macros binds the same before and after the expansion of an expression. If there is
no such scope, nothing is a call of a macro. -/
lemma expandAt_bindsSame (depth : Nat) (macros : ScopeId) (e : Expr) :
    (expandAt depth macros e).Keeps (Store.BindsSame macros) := by
  intro st
  by_cases hmacros : macros < st.scopes.size
  · exact (expandAt_extends depth macros e st).mono (fun _ _ h => h.bindsSame hmacros)
      fun _ h => h.bindsSame hmacros
  · have hnone : ¬ e.IsMacroCall st macros := by
      rintro ⟨name, -, c, hc⟩
      rw [Store.lookup, Array.getElem?_eq_none (Nat.le_of_not_lt hmacros)] at hc
      cases hc
    rw [Ensures, expandAt_of_not_isMacroCall hnone]
    exact .refl st

/-! ## Visits -/

section

variable (depth : Nat) (macros : ScopeId) (env : Store)

/-- An expression is **visited**, and answered by another one. A call of a name that is bound to a
macro is answered by what the body of the macro quotes, with the parameters bound to the arguments
as they stand; everything else is answered by itself. -/
inductive Visit : Expr → Store → Expr → Store → Prop
  /-- What is no call of a macro is kept. -/
  | kept {e : Expr} {st : Store} (h : ¬ e.IsMacroCall env macros) : Visit e st e st
  /-- A call of a macro is run. -/
  | run {name : String} {args : List Expr} {c : Closure} {a : Expr} {st st' : Store}
      (hc : env.lookup macros name = some (.macroFn c)) (hlen : args.length = c.params.length)
      (hbody : bodyValue (evalBlock depth) c (args.map .quote) st = .ok (.quote a) st') :
      Visit (.call (.ident name) args) st a st'

/-- The expressions of a list are visited one after the other, each of them once. -/
inductive Visits : List Expr → Store → List Expr → Store → Prop
  /-- There are none. -/
  | nil (st : Store) : Visits [] st [] st
  /-- The first is visited, and then the others. -/
  | cons {e a : Expr} {es as : List Expr} {st st₁ st' : Store}
      (first : Visit depth macros env e st a st₁) (rest : Visits es st₁ as st') :
      Visits (e :: es) st (a :: as) st'

/-- A call of a macro is visited that **fails**: it has the wrong number of arguments, or the body
of the macro does not end with a quotation. -/
inductive VisitFails : Expr → Store → ExpansionFault → Store → Prop
  /-- The number of arguments is wrong, and the body is not run. -/
  | argumentCount {name : String} {args : List Expr} {c : Closure} {st : Store}
      (hc : env.lookup macros name = some (.macroFn c)) (hlen : args.length ≠ c.params.length) :
      VisitFails (.call (.ident name) args) st
        (.argumentCount name args.length c.params.length) st
  /-- The body ends with an error. -/
  | failed {name : String} {args : List Expr} {c : Closure} {f : Fault} {st st' : Store}
      (hc : env.lookup macros name = some (.macroFn c)) (hlen : args.length = c.params.length)
      (hbody : bodyValue (evalBlock depth) c (args.map .quote) st = .fault f st') :
      VisitFails (.call (.ident name) args) st (.failed name f.message) st'
  /-- The body ends with a value that is no quotation. -/
  | noQuote {name : String} {args : List Expr} {c : Closure} {v : Value} {st st' : Store}
      (hc : env.lookup macros name = some (.macroFn c)) (hlen : args.length = c.params.length)
      (hbody : bodyValue (evalBlock depth) c (args.map .quote) st = .ok v st')
      (hv : ∀ a, v ≠ .quote a) :
      VisitFails (.call (.ident name) args) st (.noQuote name v.type) st'

end

/-! ## One visit -/

/-- A call of a macro with the right number of arguments ends as its body does. -/
lemma expandCall_of_length {depth : Nat} {name : String} {c : Closure} {args : List Expr}
    (hlen : args.length = c.params.length) (st : Store) :
    expandCall depth name c args st =
      match bodyValue (evalBlock depth) c (args.map .quote) st with
      | .ok (.quote a) st' => .ok a st'
      | .ok v st' => .fault (.noQuote name v.type) st'
      | .fault f st' => .fault (.failed name f.message) st'
      | .tooDeep => .tooDeep := by
  rw [expandCall, if_pos hlen]
  change Run.bind (attempt _) _ st = _
  unfold Run.bind attempt
  cases bodyValue (evalBlock depth) c (args.map .quote) st with
  | ok v st' => cases v <;> rfl
  | fault | tooDeep => rfl

section

variable {depth : Nat} {macros : ScopeId} {env st st' : Store} {e a : Expr} {f : ExpansionFault}

/-- What is no call of a macro stands for itself, also later. -/
lemma expandAt_of_kept (hsame : Store.BindsSame macros env st)
    (h : ¬ e.IsMacroCall env macros) : expandAt depth macros e st = .ok e st :=
  expandAt_of_not_isMacroCall (mt (hsame.isMacroCall_iff e).mp h)

/-- For a call of a macro stands what its expansion yields, also later. -/
lemma expandAt_of_run (hsame : Store.BindsSame macros env st) {name : String}
    {args : List Expr} {c : Closure} (hc : env.lookup macros name = some (.macroFn c)) :
    expandAt depth macros (.call (.ident name) args) st = expandCall depth name c args st :=
  expandAt_of_lookup ((hsame.lookup name).trans hc)

/-- **The expansion of an expression visits it**, if it succeeds. -/
theorem expandAt_eq_ok_iff (hsame : Store.BindsSame macros env st) :
    expandAt depth macros e st = .ok a st' ↔ Visit depth macros env e st a st' := by
  constructor
  · intro h
    by_cases hcall : e.IsMacroCall env macros
    · obtain ⟨name, args, c, rfl, hc⟩ := hcall.exists_call
      rw [expandAt_of_run hsame hc] at h
      by_cases hlen : args.length = c.params.length
      · rw [expandCall_of_length hlen] at h
        split at h
        case h_1 hbody =>
          cases h
          exact .run hc hlen hbody
        all_goals cases h
      · rw [expandCall, if_neg hlen] at h
        cases h
    · rw [expandAt_of_kept hsame hcall] at h
      cases h
      exact .kept hcall
  · intro h
    cases h with
    | kept hcall => exact expandAt_of_kept hsame hcall
    | run hc hlen hbody =>
      rw [expandAt_of_run hsame hc, expandCall_of_length hlen, hbody]

/-- **The expansion of an expression fails** exactly if it is a call of a macro that fails. -/
theorem expandAt_eq_fault_iff (hsame : Store.BindsSame macros env st) :
    expandAt depth macros e st = .fault f st' ↔ VisitFails depth macros env e st f st' := by
  constructor
  · intro h
    by_cases hcall : e.IsMacroCall env macros
    · obtain ⟨name, args, c, rfl, hc⟩ := hcall.exists_call
      rw [expandAt_of_run hsame hc] at h
      by_cases hlen : args.length = c.params.length
      · rw [expandCall_of_length hlen] at h
        split at h
        case h_2 hv hbody =>
          cases h
          exact .noQuote hc hlen hbody hv
        case h_3 hbody =>
          cases h
          exact .failed hc hlen hbody
        all_goals cases h
      · rw [expandCall, if_neg hlen] at h
        cases h
        exact .argumentCount hc hlen
    · rw [expandAt_of_kept hsame hcall] at h
      cases h
  · intro h
    cases h with
    | argumentCount hc hlen =>
      rw [expandAt_of_run hsame hc, expandCall, if_neg hlen]
      rfl
    | failed hc hlen hbody =>
      rw [expandAt_of_run hsame hc, expandCall_of_length hlen, hbody]
    | @noQuote _ _ _ v _ _ hc hlen hbody hv =>
      rw [expandAt_of_run hsame hc, expandCall_of_length hlen, hbody]
      cases v with
      | quote a => exact absurd rfl (hv a)
      | _ => rfl

/-! ## Visits along a list -/

/-- **The expansion along a list visits its expressions**, one after the other, if it succeeds. -/
theorem mapM_expandAt_eq_ok_iff {es as : List Expr} (hsame : Store.BindsSame macros env st) :
    es.mapM (expandAt depth macros) st = .ok as st' ↔ Visits depth macros env es st as st' := by
  induction es generalizing as st with
  | nil =>
    rw [List.mapM_nil]
    constructor
    · intro h
      cases h
      exact .nil _
    · intro h
      cases h
      rfl
  | cons e es ih =>
    rw [List.mapM_cons, bind_eq_ok]
    constructor
    · rintro ⟨a, st₁, ha, h⟩
      obtain ⟨as, st₂, has, hpure⟩ := bind_eq_ok.mp h
      cases hpure
      have hsame₁ := hsame.trans ((expandAt_bindsSame depth macros e st).of_ok ha)
      exact .cons ((expandAt_eq_ok_iff hsame).mp ha) ((ih hsame₁).mp has)
    · rintro (⟨⟩ | ⟨first, rest⟩)
      rename_i a as st₁
      have ha := (expandAt_eq_ok_iff hsame).mpr first
      have hsame₁ := hsame.trans ((expandAt_bindsSame depth macros e st).of_ok ha)
      exact ⟨a, st₁, ha, bind_eq_ok.mpr ⟨as, st', (ih hsame₁).mpr rest, rfl⟩⟩

/-- The scope of macros binds the same before and after the expansion along a list. -/
lemma mapM_expandAt_bindsSame (depth : Nat) (macros : ScopeId) (es : List Expr) :
    (es.mapM (expandAt depth macros)).Keeps (Store.BindsSame macros) :=
  mapM_keeps .refl (fun _ _ _ => .trans) (expandAt_bindsSame depth macros) es

/-- **The expansion along a list fails** exactly if a call of a macro fails after all expressions
before it have been visited. -/
theorem mapM_expandAt_eq_fault_iff {es : List Expr} (hsame : Store.BindsSame macros env st) :
    es.mapM (expandAt depth macros) st = .fault f st' ↔
      ∃ before e after as st₁, es = before ++ e :: after ∧
        Visits depth macros env before st as st₁ ∧ VisitFails depth macros env e st₁ f st' := by
  rw [mapM_eq_fault]
  refine exists_congr fun before => exists_congr fun e => exists_congr fun after =>
    exists_congr fun as => exists_congr fun st₁ => and_congr_right fun _ => ?_
  rw [mapM_expandAt_eq_ok_iff hsame]
  refine and_congr_right fun hvisits => ?_
  have hbefore := (mapM_expandAt_eq_ok_iff hsame).mpr hvisits
  have hlist := mapM_expandAt_bindsSame depth macros before st
  exact expandAt_eq_fault_iff (hsame.trans (hlist.of_ok hbefore))

/-- After a call that fails no body of a macro is begun. -/
lemma Expands.of_fault {before after as : List Expr} {st₁ : Store} {P : Point}
    (hbefore : before.mapM (expandAt depth macros) st = .ok as st₁)
    (he : expandAt depth macros e st₁ = .fault f st')
    (h : Expands macros depth (before ++ e :: after) st P) :
    Expands macros depth (before ++ [e]) st P := by
  induction before generalizing as st with
  | nil =>
    rw [List.mapM_nil] at hbefore
    cases hbefore
    cases h with
    | body hc hlen => exact .body hc hlen
    | next ha _ =>
      rw [he] at ha
      cases ha
  | cons x before ih =>
    rw [List.mapM_cons, bind_eq_ok] at hbefore
    obtain ⟨b, st₂, hx, hbefore⟩ := hbefore
    obtain ⟨bs, st₃, hbefore, hpure⟩ := bind_eq_ok.mp hbefore
    cases hpure
    cases h with
    | body hc hlen => exact .body hc hlen
    | next ha hP =>
      rw [hx] at ha
      cases ha
      exact .next hx (ih hbefore hP)

end

/-! ## Programs -/

/-- **The expansion of a program** visits the expressions that are handed over, in the order of the
source, and nothing else: what stands for a call of a macro is not visited again.

It succeeds exactly if all visits succeed, and puts the answers in the places of what is visited. It
fails exactly if a visit fails after all before it have succeeded; the failure is that of this
visit, and no body of a macro is begun after it. In all cases the scope of macros binds the same
before and after. -/
theorem Program.expandMacros_visits (macros : ScopeId) (depth : Nat) (program : Program)
    (st : Store) :
    (∀ program' st', program.expandMacros depth macros st = .ok program' st' ↔
      ∃ visited answers, (Tree.program program).Replaced visited answers (.program program') ∧
        Visits depth macros st visited st answers st') ∧
    (∀ f st', program.expandMacros depth macros st = .fault f st' ↔
      ∃ before e after answers st₁, (Tree.program program).handedOver = before ++ e :: after ∧
        Visits depth macros st before st answers st₁ ∧ VisitFails depth macros st e st₁ f st' ∧
        ∀ P, Expands macros depth (before ++ e :: after) st P →
          Expands macros depth (before ++ [e]) st P) ∧
    (program.expandMacros depth macros).Ensures st (fun _ => Store.BindsSame macros st)
      (Store.BindsSame macros st) := by
  have hself : Store.BindsSame macros st st := .refl st
  refine ⟨fun program' st' => ?_, fun f st' => ?_, ?_⟩
  · rw [expandMacros, Block.replaceM_eq, bind_eq_ok]
    constructor
    · rintro ⟨answers, st₁, hanswers, h⟩
      cases h
      have hvisits := (mapM_expandAt_eq_ok_iff hself).mp hanswers
      refine ⟨handedOverStmts program, answers, ?_, hvisits⟩
      exact (Tree.replaced_iff _ _ _ _).mpr ⟨rfl, (mapM_expandAt hanswers).1, rfl⟩
    · rintro ⟨visited, answers, hreplaced, hvisits⟩
      obtain ⟨rfl, -, hfill⟩ := (Tree.replaced_iff _ _ _ _).mp hreplaced
      cases hfill
      exact ⟨answers, st', (mapM_expandAt_eq_ok_iff hself).mpr hvisits, rfl⟩
  · rw [expandMacros, Block.replaceM_eq, bind_eq_fault]
    constructor
    · rintro (h | ⟨_, _, _, h⟩)
      · obtain ⟨before, e, after, answers, st₁, hsplit, hvisits, hfails⟩ :=
          (mapM_expandAt_eq_fault_iff hself).mp h
        have hbefore := (mapM_expandAt_eq_ok_iff hself).mpr hvisits
        have hlist := mapM_expandAt_bindsSame depth macros before st
        have he := (expandAt_eq_fault_iff (hlist.of_ok hbefore)).mpr hfails
        exact ⟨before, e, after, answers, st₁, hsplit, hvisits, hfails, fun P hP =>
          hP.of_fault hbefore he⟩
      · cases h
    · rintro ⟨before, e, after, answers, st₁, hsplit, hvisits, hfails, -⟩
      exact .inl ((mapM_expandAt_eq_fault_iff hself).mpr
        ⟨before, e, after, answers, st₁, hsplit, hvisits, hfails⟩)
  · rw [expandMacros, Block.replaceM_eq]
    exact .andThen (mapM_expandAt_bindsSame depth macros _ st) fun _ _ h => .pure h

/-- A macro without parameters that writes a line and quotes a call of itself. -/
def quoteSelf : Closure :=
  ⟨0, [], [.expr (.call (.ident "puts") [.int 1]),
    .expr (.call (.ident "quote") [.call (.ident "m") []])], 0⟩

/-- A store whose only scope binds `m` to this macro. -/
def quoteSelfStore : Store :=
  ⟨#[⟨[("m", .macroFn quoteSelf)], none⟩], 1, ""⟩

/-- Two calls of this macro are visited once each, and what stands for them is not visited. A call
with an argument fails, and the macro is not run for the call after it. -/
theorem Program.expandMacros_visits_self :
    let call : Expr := .call (.ident "m") []
    let wrong : Expr := .call (.ident "m") [.int 1]
    let twice : Program := [.expr (.binary .add call (.int 2)), .letBind "x" call]
    let failing : Program := [.expr call, .expr (.binary .add wrong call)]
    (∃ st', st'.output = "1\n1\n" ∧ twice.expandMacros 2 0 quoteSelfStore = .ok twice st' ∧
      ∃ visited answers, (Tree.program twice).Replaced visited answers (.program twice) ∧
        Visits 2 0 quoteSelfStore visited quoteSelfStore answers st') ∧
    ∃ st', st'.output = "1\n" ∧
      failing.expandMacros 2 0 quoteSelfStore = .fault (.argumentCount "m" 1 0) st' ∧
      ∃ before e after answers st₁, (Tree.program failing).handedOver = before ++ e :: after ∧
        Visits 2 0 quoteSelfStore before quoteSelfStore answers st₁ ∧
        VisitFails 2 0 quoteSelfStore e st₁ (.argumentCount "m" 1 0) st' ∧
        ∀ P, Expands 0 2 (before ++ e :: after) quoteSelfStore P →
          Expands 0 2 (before ++ [e]) quoteSelfStore P := by
  intro call wrong twice failing
  let globals : Scope := ⟨[("m", .macroFn quoteSelf)], none⟩
  let once : Store := ⟨#[globals, ⟨[], some 0⟩], 1, "1\n"⟩
  let again : Store := ⟨#[globals, ⟨[], some 0⟩, ⟨[], some 0⟩], 1, "1\n1\n"⟩
  have htwice : twice.expandMacros 2 0 quoteSelfStore = .ok twice again := by
    with_unfolding_all rfl
  have hfailing : failing.expandMacros 2 0 quoteSelfStore =
      .fault (.argumentCount "m" 1 0) once := by with_unfolding_all rfl
  have hok := ((Program.expandMacros_visits 0 2 twice _).1 _ _).mp htwice
  have hfault := ((Program.expandMacros_visits 0 2 failing _).2.1 _ _).mp hfailing
  exact ⟨⟨again, rfl, htwice, hok⟩, once, rfl, hfailing, hfault⟩

end QuoteLang
