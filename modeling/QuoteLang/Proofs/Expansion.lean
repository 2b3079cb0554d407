import QuoteLang.Session
import QuoteLang.Proofs.Frame

set_option relaxedAutoImplicit false
set_option autoImplicit false

/-!
# Which calls of macros are expanded

Expansion replaces the calls of macros that the pass over a program hands over. A call that stands
inside another call or inside a macro literal is not handed over, so it stays. This is the only way
in which a call of a macro can be left after an expansion, as long as the macros themselves yield no
such calls.

## Main definitions

* `Expr.calledNames`, `Program.calledNames` — the names that are called in a tree, at any depth.
* `Store.IsMacro`, `Expr.IsMacroCall` — the names that are bound to macros, and calls of them.
* `Store.YieldNoCalls` — what stands for some calls of macros contains no calls of macros.

## Main results

* `Program.calledNames_fill` — a tree calls what the answers filled into it call.
* `mapM_expandAt` — what the expansion along a list answers, and that it changes no scope.
* `Program.expandMacros_complete_iff` — no call of a macro is left exactly if the calls and macro
  literals that are handed over, and are no calls of macros themselves, contain none.
-/

namespace QuoteLang

open Run

/-! ## Called names -/

mutual

/-- The names that are called in an expression, at any depth. -/
def Expr.calledNames : Expr → List String
  | .ident _ | .int _ | .bool _ | .str _ => []
  | .unary _ e => e.calledNames
  | .binary _ l r => l.calledNames ++ r.calledNames
  | .cond c yes none => c.calledNames ++ calledNamesStmts yes
  | .cond c yes (some no) => c.calledNames ++ (calledNamesStmts yes ++ calledNamesStmts no)
  | .fnLit _ body => calledNamesStmts body
  | .call callee args =>
    (Expr.call callee args).calledName?.toList ++ (callee.calledNames ++ calledNamesExprs args)
  | .array items => calledNamesExprs items
  | .hash entries => calledNamesEntries entries
  | .index base position => base.calledNames ++ position.calledNames
  | .macroLit _ body => calledNamesStmts body

/-- The names that are called in a statement, at any depth. -/
def Stmt.calledNames : Stmt → List String
  | .letBind _ value => value.calledNames
  | .ret none => []
  | .ret (some value) => value.calledNames
  | .expr value => value.calledNames

/-- The names that are called in statements, at any depth. -/
def calledNamesStmts : List Stmt → List String
  | [] => []
  | s :: rest => s.calledNames ++ calledNamesStmts rest

/-- The names that are called in the expressions of a list, at any depth. -/
def calledNamesExprs : List Expr → List String
  | [] => []
  | e :: rest => e.calledNames ++ calledNamesExprs rest

/-- The names that are called in the entries of a hash literal, at any depth. -/
def calledNamesEntries : List (Expr × Expr) → List String
  | [] => []
  | (key, value) :: rest => key.calledNames ++ (value.calledNames ++ calledNamesEntries rest)

end

/-- The names that are called in a program, at any depth. -/
def Program.calledNames (program : Program) : List String :=
  calledNamesStmts program

/-! ## Filling in -/

/-- What answers call, in two parts. -/
lemma flatMap_take_drop {α β : Type} (f : α → List β) (as : List α) (n : Nat) :
    as.flatMap f = (as.take n).flatMap f ++ (as.drop n).flatMap f := by
  rw [← List.flatMap_append, List.take_append_drop]

/-- Statements call what the answers filled into them call, if each of them does. -/
lemma calledNames_fillStmts {ss : List Stmt}
    (h : ∀ s ∈ ss, ∀ as : List Expr, as.length = s.handedOver.length →
      (s.fill as).calledNames = as.flatMap Expr.calledNames)
    {as : List Expr} (has : as.length = (handedOverStmts ss).length) :
    calledNamesStmts (fillStmts ss as) = as.flatMap Expr.calledNames := by
  induction ss generalizing as with
  | nil =>
    rw [handedOverStmts] at has
    obtain rfl : as = [] := List.eq_nil_of_length_eq_zero has
    rw [fillStmts, calledNamesStmts, List.flatMap_nil]
  | cons s ss ih =>
    rw [List.forall_mem_cons] at h
    rw [handedOverStmts, List.length_append] at has
    rw [fillStmts, calledNamesStmts, h.1 _ (by simp; omega), ih h.2 (by simp; omega),
      ← flatMap_take_drop]

/-- Expressions call what the answers filled into them call, if each of them does. -/
lemma calledNames_fillExprs {es : List Expr}
    (h : ∀ e ∈ es, ∀ as : List Expr, as.length = e.handedOver.length →
      (e.fill as).calledNames = as.flatMap Expr.calledNames)
    {as : List Expr} (has : as.length = (handedOverExprs es).length) :
    calledNamesExprs (fillExprs es as) = as.flatMap Expr.calledNames := by
  induction es generalizing as with
  | nil =>
    rw [handedOverExprs] at has
    obtain rfl : as = [] := List.eq_nil_of_length_eq_zero has
    rw [fillExprs, calledNamesExprs, List.flatMap_nil]
  | cons e es ih =>
    rw [List.forall_mem_cons] at h
    rw [handedOverExprs, List.length_append] at has
    rw [fillExprs, calledNamesExprs, h.1 _ (by simp; omega), ih h.2 (by simp; omega),
      ← flatMap_take_drop]

/-- Entries call what the answers filled into them call, if each key and value does. -/
lemma calledNames_fillEntries {entries : List (Expr × Expr)}
    (h : ∀ e ∈ entries, (∀ as : List Expr, as.length = e.1.handedOver.length →
        (e.1.fill as).calledNames = as.flatMap Expr.calledNames) ∧
      ∀ as : List Expr, as.length = e.2.handedOver.length →
        (e.2.fill as).calledNames = as.flatMap Expr.calledNames)
    {as : List Expr} (has : as.length = (handedOverEntries entries).length) :
    calledNamesEntries (fillEntries entries as) = as.flatMap Expr.calledNames := by
  induction entries generalizing as with
  | nil =>
    rw [handedOverEntries] at has
    obtain rfl : as = [] := List.eq_nil_of_length_eq_zero has
    rw [fillEntries, calledNamesEntries, List.flatMap_nil]
  | cons entry entries ih =>
    obtain ⟨key, value⟩ := entry
    rw [List.forall_mem_cons] at h
    rw [handedOverEntries, List.length_append, List.length_append] at has
    rw [fillEntries, calledNamesEntries, h.1.1 _ (by simp; omega), h.1.2 _ (by simp; omega),
      ih h.2 (by simp; omega), ← flatMap_take_drop, ← flatMap_take_drop]

/-- Every expression and every statement calls what the answers filled into it call. -/
lemma calledNames_fill_aux :
    (∀ (e : Expr) (as : List Expr), as.length = e.handedOver.length →
      (e.fill as).calledNames = as.flatMap Expr.calledNames) ∧
    ∀ (s : Stmt) (as : List Expr), as.length = s.handedOver.length →
      (s.fill as).calledNames = as.flatMap Expr.calledNames := by
  apply Expr.induction
  case ident | int | bool | str =>
    intro a as has
    obtain ⟨b, rfl⟩ := List.length_eq_one_iff.mp has
    simp [Expr.fill]
  case call =>
    intro f args _ _ as has
    obtain ⟨b, rfl⟩ := List.length_eq_one_iff.mp has
    simp [Expr.fill]
  case macroLit =>
    intro params body _ as has
    obtain ⟨b, rfl⟩ := List.length_eq_one_iff.mp has
    simp [Expr.fill]
  case unary =>
    intro op e ih as has
    rw [Expr.handedOver] at has
    rw [Expr.fill, Expr.calledNames, ih as has]
  case binary =>
    intro op l r ihl ihr as has
    rw [Expr.handedOver, List.length_append] at has
    rw [Expr.fill, Expr.calledNames, ihl _ (by simp; omega), ihr _ (by simp; omega),
      ← flatMap_take_drop]
  case cond =>
    intro c yes no ihc ihyes ihno as has
    cases no with
    | none =>
      rw [Expr.handedOver, List.length_append] at has
      rw [Expr.fill, Expr.calledNames, ihc _ (by simp; omega),
        calledNames_fillStmts ihyes (by simp; omega), ← flatMap_take_drop]
    | some no =>
      rw [Expr.handedOver, List.length_append, List.length_append] at has
      rw [Expr.fill, Expr.calledNames, ihc _ (by simp; omega),
        calledNames_fillStmts ihyes (by simp; omega),
        calledNames_fillStmts (ihno no rfl) (by simp; omega), ← flatMap_take_drop,
        ← flatMap_take_drop]
  case fnLit =>
    intro params body ih as has
    rw [Expr.handedOver] at has
    rw [Expr.fill, Expr.calledNames, calledNames_fillStmts ih has]
  case array =>
    intro items ih as has
    rw [Expr.handedOver] at has
    rw [Expr.fill, Expr.calledNames, calledNames_fillExprs ih has]
  case hash =>
    intro entries ih as has
    rw [Expr.handedOver] at has
    rw [Expr.fill, Expr.calledNames, calledNames_fillEntries ih has]
  case index =>
    intro base position ihb ihp as has
    rw [Expr.handedOver, List.length_append] at has
    rw [Expr.fill, Expr.calledNames, ihb _ (by simp; omega), ihp _ (by simp; omega),
      ← flatMap_take_drop]
  case letBind =>
    intro name e ih as has
    rw [Stmt.handedOver] at has
    rw [Stmt.fill, Stmt.calledNames, ih as has]
  case ret =>
    intro value ih as has
    cases value with
    | none =>
      rw [Stmt.handedOver] at has
      obtain rfl : as = [] := List.eq_nil_of_length_eq_zero has
      rw [Stmt.fill, Stmt.calledNames, List.flatMap_nil]
    | some e =>
      rw [Stmt.handedOver] at has
      rw [Stmt.fill, Stmt.calledNames, ih e rfl as has]
  case expr =>
    intro e ih as has
    rw [Stmt.handedOver] at has
    rw [Stmt.fill, Stmt.calledNames, ih as has]

/-- **A program calls what the answers filled into it call**, and nothing else. -/
theorem Program.calledNames_fill {program : Program} {as : List Expr}
    (has : as.length = (handedOverStmts program).length) :
    Program.calledNames (fillStmts program as) = as.flatMap Expr.calledNames :=
  calledNames_fillStmts (fun s _ => calledNames_fill_aux.2 s) has

/-! ## Calls of macros -/

/-- A name is bound to a macro. -/
def Store.IsMacro (st : Store) (macros : ScopeId) (name : String) : Prop :=
  ∃ c, st.lookup macros name = some (.macroFn c)

/-- An expression is a call of a name that is bound to a macro. -/
def Expr.IsMacroCall (st : Store) (macros : ScopeId) (e : Expr) : Prop :=
  ∃ name ∈ e.calledName?, st.IsMacro macros name

/-- Some calls yield no calls of macros: whatever has been evaluated before, what stands for such a
call contains no call of a name that is bound to a macro. -/
def Store.YieldNoCalls (st : Store) (depth : Nat) (macros : ScopeId) (calls : Expr → Prop) : Prop :=
  ∀ name args, calls (.call (.ident name) args) → ∀ c, st.lookup macros name = some (.macroFn c) →
    ∀ st₁ a st₂, st.Extends st₁ → expandCall depth name c args st₁ = .ok a st₂ →
      ∀ called ∈ a.calledNames, ¬ st.IsMacro macros called

/-- The names that are bound to macros stay the same where no scope is changed. -/
lemma Store.Extends.isMacro_iff {st st' : Store} (h : st.Extends st') {macros : ScopeId}
    (hmacros : macros < st.scopes.size) (name : String) :
    st'.IsMacro macros name ↔ st.IsMacro macros name := by
  rw [IsMacro, IsMacro, h.lookup hmacros]

/-- An expression that calls a name is a call of it. -/
lemma exists_of_calledName? {e : Expr} {name : String} (h : e.calledName? = some name) :
    ∃ args, e = .call (.ident name) args := by
  unfold Expr.calledName? at h
  split at h
  case h_1 called args =>
    cases h
    exact ⟨args, rfl⟩
  case h_2 => cases h

/-- For a call of a name stands what its expansion yields if the name is bound to a macro, and the
call itself otherwise. -/
lemma expandAt_call (depth : Nat) (macros : ScopeId) (name : String) (args : List Expr)
    (st : Store) : expandAt depth macros (.call (.ident name) args) st =
      match st.lookup macros name with
      | some (.macroFn c) => expandCall depth name c args st
      | _ => .ok (.call (.ident name) args) st := by
  change (match st.lookup macros name with
    | some (.macroFn c) => expandCall depth name c args
    | _ => Pure.pure (.call (.ident name) args) : Run ExpansionFault Expr) st = _
  cases st.lookup macros name with
  | none => rfl
  | some v => cases v <;> rfl

/-- For a call of a macro stands what its expansion yields. -/
lemma expandAt_of_lookup {depth : Nat} {macros : ScopeId} {name : String} {args : List Expr}
    {c : Closure} {st : Store} (h : st.lookup macros name = some (.macroFn c)) :
    expandAt depth macros (.call (.ident name) args) st = expandCall depth name c args st := by
  rw [expandAt_call, h]

/-- What is no call of a macro stands for itself. -/
lemma expandAt_of_not_isMacroCall {depth : Nat} {macros : ScopeId} {e : Expr} {st : Store}
    (h : ¬ e.IsMacroCall st macros) : expandAt depth macros e st = .ok e st := by
  cases hname : e.calledName? with
  | none =>
    unfold expandAt
    split
    · cases hname
    · rfl
  | some name =>
    obtain ⟨args, rfl⟩ := exists_of_calledName? hname
    rw [expandAt_call]
    split
    case h_1 c hc => exact absurd ⟨name, rfl, c, hc⟩ h
    case h_2 => rfl

/-- A call of a macro is a call of a name with arguments. -/
lemma Expr.IsMacroCall.exists_call {st : Store} {macros : ScopeId} {e : Expr}
    (h : e.IsMacroCall st macros) :
    ∃ name args c, e = .call (.ident name) args ∧ st.lookup macros name = some (.macroFn c) := by
  obtain ⟨name, hname, c, hc⟩ := h
  obtain ⟨args, rfl⟩ := exists_of_calledName? hname
  exact ⟨name, args, c, rfl, hc⟩

/-- The expansion of an expression changes no scope. -/
lemma expandAt_extends (depth : Nat) (macros : ScopeId) (e : Expr) (st : Store) :
    (expandAt depth macros e).Ensures st (fun _ st' => st.Extends st') st.Extends := by
  by_cases h : e.IsMacroCall st macros
  · obtain ⟨name, args, c, rfl, hc⟩ := h.exists_call
    rw [Ensures, expandAt_of_lookup hc]
    exact expandCall_extends depth name c args st
  · rw [Ensures, expandAt_of_not_isMacroCall h]
    exact Store.Extends.refl st

/-- **The expansion along a list** answers for each of its expressions what the expansion answers in
some store after the first, in which no scope is changed. -/
theorem mapM_expandAt {depth : Nat} {macros : ScopeId} {es as : List Expr} {st st' : Store}
    (h : es.mapM (expandAt depth macros) st = .ok as st') :
    as.length = es.length ∧ st.Extends st' ∧
      (∀ e ∈ es, ∃ a ∈ as, ∃ st₁ st₂, st.Extends st₁ ∧ expandAt depth macros e st₁ = .ok a st₂) ∧
      ∀ a ∈ as, ∃ e ∈ es, ∃ st₁ st₂, st.Extends st₁ ∧ expandAt depth macros e st₁ = .ok a st₂ := by
  induction es generalizing as st with
  | nil =>
    rw [List.mapM_nil] at h
    cases h
    exact ⟨rfl, .refl _, by simp, by simp⟩
  | cons e es ih =>
    rw [List.mapM_cons, bind_eq_ok] at h
    obtain ⟨a, st₁, ha, h⟩ := h
    rw [bind_eq_ok] at h
    obtain ⟨as', st₂, has, h⟩ := h
    cases h
    have hext := (expandAt_extends depth macros e st).of_ok ha
    obtain ⟨hlen, hext', hleft, hright⟩ := ih has
    have later {e' a' : Expr} (hlater : ∃ s₁ s₂, st₁.Extends s₁ ∧
        expandAt depth macros e' s₁ = .ok a' s₂) :
        ∃ s₁ s₂, st.Extends s₁ ∧ expandAt depth macros e' s₁ = .ok a' s₂ := by
      obtain ⟨s₁, s₂, hs, he⟩ := hlater
      exact ⟨s₁, s₂, hext.trans hs, he⟩
    refine ⟨by simp [hlen], hext.trans hext', ?_, ?_⟩
    · rw [List.forall_mem_cons]
      refine ⟨⟨a, List.mem_cons_self, st, st₁, .refl st, ha⟩, fun e' he' => ?_⟩
      obtain ⟨a', ha', hlater⟩ := hleft e' he'
      exact ⟨a', List.mem_cons_of_mem _ ha', later hlater⟩
    · rw [List.forall_mem_cons]
      refine ⟨⟨e, List.mem_cons_self, st, st₁, .refl st, ha⟩, fun a' ha' => ?_⟩
      obtain ⟨e', he', hlater⟩ := hright a' ha'
      exact ⟨e', List.mem_cons_of_mem _ he', later hlater⟩

/-! ## A macro that yields no calls -/

/-- A macro without parameters that quotes the integer 1. -/
def quoteOne : Closure :=
  ⟨0, [], [.expr (.call (.ident "quote") [.int 1])], 0⟩

/-- A store whose only scope binds `m` to this macro. -/
def quoteOneStore : Store :=
  ⟨#[⟨[("m", .macroFn quoteOne)], none⟩], 1, ""⟩

/-- What is bound there is what the binding of `m` says. -/
lemma lookup_quoteOneStore (name : String) :
    quoteOneStore.lookup 0 name = [("m", Value.macroFn quoteOne)].lookup name := by
  have hscope : quoteOneStore.scopes[0]? = some ⟨[("m", .macroFn quoteOne)], none⟩ := rfl
  rw [Store.lookup_eq hscope (by simp)]
  simp

/-- The name `m` is bound to a macro there. -/
lemma isMacro_quoteOneStore : quoteOneStore.IsMacro 0 "m" :=
  ⟨quoteOne, by rw [lookup_quoteOneStore]; rfl⟩

/-- Whatever is called there, its expansion contains no call. -/
lemma yieldNoCalls_quoteOneStore (calls : Expr → Prop) :
    quoteOneStore.YieldNoCalls 2 0 calls := by
  intro name args _ c hc st₁ a st₂ _ ha called hcalled
  rw [lookup_quoteOneStore] at hc
  obtain ⟨rfl, rfl⟩ : name = "m" ∧ quoteOne = c := by
    by_cases hname : name = "m"
    · subst hname
      simpa using hc
    · have hbeq : (name == "m") = false := by simpa using hname
      simp [List.lookup_cons, hbeq] at hc
  cases args with
  | nil =>
    obtain ⟨rfl, -⟩ : a = .int 1 ∧ st₂ = (st₁.enclose 0).2 := by
      injection ha with ha hst
      exact ⟨ha.symm, hst.symm⟩
    rw [Expr.calledNames] at hcalled
    cases hcalled
  | cons arg args =>
    rw [expandCall, if_neg (by simp [quoteOne])] at ha
    cases ha

/-! ## Complete expansion -/

/-- **When expansion is complete.** Let the calls that a program hands over yield no calls of
macros. If its expansion succeeds, no call of a macro is left anywhere in the result exactly if no
expression that is handed over, and is no call of a macro itself, contains one.

**Proof sketch.** The result calls what the answers call that are filled into it. A call of a macro
is answered by what it yields, and everything else by itself; and no scope is changed on the way. -/
theorem Program.expandMacros_complete_iff {program program' : Program} {depth : Nat}
    {macros : ScopeId} {st st' : Store} (hmacros : macros < st.scopes.size)
    (hyields : st.YieldNoCalls depth macros (· ∈ handedOverStmts program))
    (h : program.expandMacros depth macros st = .ok program' st') :
    (∀ name ∈ program'.calledNames, ¬ st'.IsMacro macros name) ↔
      ∀ e ∈ handedOverStmts program, ¬ e.IsMacroCall st macros →
        ∀ name ∈ e.calledNames, ¬ st.IsMacro macros name := by
  rw [Program.expandMacros, Block.replaceM_eq, bind_eq_ok] at h
  obtain ⟨as, st₁, has, h⟩ := h
  cases h
  obtain ⟨hlen, hext, hleft, hright⟩ := mapM_expandAt has
  rw [Program.calledNames_fill hlen]
  -- Whether a name is bound to a macro is the same in all stores that are met.
  have same {s : Store} (hs : st.Extends s) (e : Expr) :
      e.IsMacroCall s macros ↔ e.IsMacroCall st macros := by
    simp only [Expr.IsMacroCall, hs.isMacro_iff hmacros]
  simp only [hext.isMacro_iff hmacros]
  constructor
  · intro hnone e he hcall name hname
    obtain ⟨a, ha, s₁, s₂, hs₁, hanswer⟩ := hleft e he
    rw [expandAt_of_not_isMacroCall (mt (same hs₁ e).mp hcall)] at hanswer
    cases hanswer
    exact hnone name (List.mem_flatMap.mpr ⟨_, ha, hname⟩)
  · intro hnone name hname
    obtain ⟨a, ha, hname⟩ := List.mem_flatMap.mp hname
    obtain ⟨e, he, s₁, s₂, hs₁, hanswer⟩ := hright a ha
    by_cases hcall : e.IsMacroCall st macros
    · obtain ⟨called, args, c, rfl, hc⟩ := hcall.exists_call
      rw [expandAt_of_lookup (hs₁.lookup hmacros called ▸ hc)] at hanswer
      exact hyields called args he c hc s₁ a s₂ hs₁ hanswer name hname
    · rw [expandAt_of_not_isMacroCall (mt (same hs₁ e).mp hcall)] at hanswer
      cases hanswer
      exact hnone _ he hcall name hname

/-- A call of a macro as an operand is expanded, and no call is left. -/
lemma expandMacros_complete_operand :
    let program : Program := [.expr (.binary .add (.call (.ident "m") []) (.int 2))]
    let program' : Program := [.expr (.binary .add (.int 1) (.int 2))]
    let st' : Store := (quoteOneStore.enclose 0).2
    program.expandMacros 2 0 quoteOneStore = .ok program' st' ∧
      ((∀ name ∈ program'.calledNames, ¬ st'.IsMacro 0 name) ↔
        ∀ e ∈ handedOverStmts program, ¬ e.IsMacroCall quoteOneStore 0 →
          ∀ name ∈ e.calledNames, ¬ quoteOneStore.IsMacro 0 name) := by
  intro program program' st'
  have h : program.expandMacros 2 0 quoteOneStore = .ok program' st' := by with_unfolding_all rfl
  exact ⟨h, Program.expandMacros_complete_iff (by decide) (yieldNoCalls_quoteOneStore _) h⟩

/-- A call of a macro as an argument of another call is left, although no macro yields a call. -/
lemma expand_leaves_argument :
    ∃ program : Program,
      parse "let m = macro() \x7b quote(1) \x7d; f(m());" =
        .ok (.letBind "m" (.macroLit [] quoteOne.body) :: program) ∧
      Session.expand 2 0 (.letBind "m" (.macroLit [] quoteOne.body) :: program)
        Store.empty.newGlobal.2 = .ok program quoteOneStore ∧
      quoteOneStore.YieldNoCalls 2 0 (fun _ => True) ∧
      ∃ name ∈ program.calledNames, quoteOneStore.IsMacro 0 name := by
  refine ⟨[.expr (.call (.ident "f") [.call (.ident "m") []])], ?_, ?_, ?_, "m", ?_, ?_⟩
  · exact parse_eq_ok_of_toOption (by decide +kernel)
  · with_unfolding_all rfl
  · exact yieldNoCalls_quoteOneStore _
  · decide +kernel
  · exact isMacro_quoteOneStore

end QuoteLang
