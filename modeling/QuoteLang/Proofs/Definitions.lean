import QuoteLang.Proofs.Trace
import QuoteLang.Proofs.Writes

set_option relaxedAutoImplicit false
set_option autoImplicit false

/-!
# Definitions of macros

The macros that a text defines at its top level are bound in the scope of macros before anything
else is done with the text. Nothing that is evaluated later, neither the body of a macro nor the
program that is left, changes that scope. So it binds what has been defined so far, and nothing
else.

## Main definitions

* `MacroDef` — a definition of a macro, with `Program.definitions` and `Program.withoutDefinitions`,
  the two parts of a program.
* `Store.defineAll` — binds the macros of some definitions, one after the other.
* `lastDefinition` — the last of several definitions of a name.
* `Store.HoldsMacros` — a scope binds the macros of some definitions and nothing else.

## Main results

* `Program.defineMacros_eq` — defining macros binds the definitions and leaves the other statements.
* `Store.HoldsMacros.defineAll` — the macros of further definitions are bound besides.
* `Program.expandMacros_extends` — expanding macros changes no scope.
* `Point.Reaches.untouched` — an evaluation in another scope leaves a scope as it is, wherever it
  has come to.
-/

namespace QuoteLang

open Run

/-! ## Definitions and other statements -/

/-- A definition of a macro at the top level of a program. -/
structure MacroDef where
  /-- The name that is bound. -/
  name : String
  /-- The names of the parameters. -/
  params : List String
  /-- The statements of the body. -/
  body : Block

/-- The definition that a statement is, if it binds a name to a macro literal. -/
def Stmt.macroDef? : Stmt → Option MacroDef
  | .letBind name (.macroLit params body) => some ⟨name, params, body⟩
  | _ => none

/-- The definitions at the top level of a program, in order. -/
def Program.definitions (program : Program) : List MacroDef :=
  program.filterMap Stmt.macroDef?

/-- The statements at the top level of a program that define no macros. -/
def Program.withoutDefinitions (program : Program) : Program :=
  program.filter (·.macroDef?.isNone)

/-- The last of several definitions of a name. -/
def lastDefinition (ds : List MacroDef) (name : String) : Option MacroDef :=
  (ds.filter (·.name == name)).getLast?

/-- Binds the macro of a definition in a scope, which is also the scope that its body refers to. -/
def Store.define (macros : ScopeId) (st : Store) (d : MacroDef) : Store :=
  let (c, st) := st.newClosure d.params d.body macros
  st.bind macros d.name (.macroFn c)

/-- Binds the macros of definitions in a scope, one after the other. -/
def Store.defineAll (st : Store) (macros : ScopeId) (ds : List MacroDef) : Store :=
  ds.foldl (Store.define macros) st

/-- **Defining macros** binds the definitions of a program in order and leaves its other
statements. -/
theorem Program.defineMacros_eq {ε : Type} (macros : ScopeId) (program : Program) (st : Store) :
    (program.defineMacros macros : Run ε Program) st =
      .ok program.withoutDefinitions (st.defineAll macros program.definitions) := by
  fun_induction Program.defineMacros (ε := ε) macros program generalizing st with
  | case1 => rfl
  | case2 name params body rest ih => exact ih _
  | case3 s rest hne ih =>
    have hnone : s.macroDef? = none := by
      unfold Stmt.macroDef?
      split
      · exact absurd rfl (hne _ _ _)
      · rfl
    have hdefinitions : definitions (s :: rest) = definitions rest :=
      List.filterMap_cons_none hnone
    have hothers : withoutDefinitions (s :: rest) = s :: withoutDefinitions rest :=
      List.filter_cons_of_pos (by rw [hnone]; rfl)
    rw [hdefinitions, hothers]
    exact bind_eq_ok.mpr ⟨_, _, ih st, rfl⟩

/-! ## What definitions do to the scopes -/

/-- A definition changes no other scope. -/
lemma Store.define_framed (macros : ScopeId) (st : Store) (d : MacroDef) :
    Store.Framed macros st (st.define macros d) :=
  Framed.kept.trans (Framed.kept.newClosure macros st d.params d.body) (.bind macros _ d.name _)

/-- Definitions change no other scope. -/
lemma Store.defineAll_framed (macros : ScopeId) (st : Store) (ds : List MacroDef) :
    Store.Framed macros st (st.defineAll macros ds) := by
  induction ds generalizing st with
  | nil => exact (Store.Extends.refl st).framed macros
  | cons d ds ih => exact (st.define_framed macros d).trans (ih _)

/-- A value is the macro of a definition, whose body refers to a scope. -/
def MacroDef.IsMacro (macros : ScopeId) (v : Value) (d : MacroDef) : Prop :=
  ∃ id, v = .macroFn ⟨id, d.params, d.body, macros⟩

/-- A scope **holds the macros of definitions** and nothing else: it has no outer scope, and binds
each name that is defined, and no other, exactly once: to the macro of its last definition. -/
def Store.HoldsMacros (st : Store) (macros : ScopeId) (ds : List MacroDef) : Prop :=
  ∃ bindings, st.scopes[macros]? = some ⟨bindings, none⟩ ∧ (bindings.map Prod.fst).Nodup ∧
    ∀ name, Option.Rel (MacroDef.IsMacro macros) (bindings.lookup name) (lastDefinition ds name)

section

variable {st : Store} {macros : ScopeId} {ds : List MacroDef}

/-- A further definition of a name is the last. -/
lemma lastDefinition_append_self (ds : List MacroDef) (d : MacroDef) :
    lastDefinition (ds ++ [d]) d.name = some d := by
  rw [lastDefinition, List.filter_append, List.filter_cons_of_pos (by simp),
    List.filter_nil, List.getLast?_concat]

/-- A further definition of another name changes nothing. -/
lemma lastDefinition_append_of_ne (ds : List MacroDef) {d : MacroDef} {name : String}
    (h : name ≠ d.name) : lastDefinition (ds ++ [d]) name = lastDefinition ds name := by
  rw [lastDefinition, List.filter_append, List.filter_cons_of_neg (by simpa using h.symm),
    List.filter_nil, List.append_nil, lastDefinition]

/-- A name has a last definition exactly if it is defined. -/
lemma isSome_lastDefinition_iff {name : String} :
    (lastDefinition ds name).isSome = true ↔ ∃ d ∈ ds, d.name = name := by
  rw [lastDefinition, List.getLast?_isSome, ← List.length_pos_iff, List.length_filter_pos_iff]
  simp

/-- The macro of a further definition is bound in the scope. -/
lemma Store.HoldsMacros.define (h : st.HoldsMacros macros ds) (d : MacroDef) :
    (st.define macros d).HoldsMacros macros (ds ++ [d]) := by
  obtain ⟨bindings, hscope, hnodup, hbound⟩ := h
  refine ⟨Assoc.put d.name (.macroFn ⟨st.closures, d.params, d.body, macros⟩) bindings, ?_,
    Assoc.nodup_keys_put _ _ hnodup, fun name => ?_⟩
  · simp only [Store.define, Store.newClosure, Store.bind, Array.getElem?_modify, if_true, hscope,
      Option.map_some]
  · by_cases hname : name = d.name
    · subst hname
      rw [Assoc.lookup_put_self, lastDefinition_append_self]
      exact .some ⟨_, rfl⟩
    · rw [Assoc.lookup_put_of_ne hname, lastDefinition_append_of_ne ds hname]
      exact hbound name

/-- The macros of further definitions are bound in the scope. -/
theorem Store.HoldsMacros.defineAll (h : st.HoldsMacros macros ds) (more : List MacroDef) :
    (st.defineAll macros more).HoldsMacros macros (ds ++ more) := by
  induction more generalizing st ds with
  | nil =>
    rw [List.append_nil]
    exact h
  | cons d more ih =>
    rw [List.append_cons]
    exact ih (h.define d)

/-- Whether a scope holds macros depends on that scope only. -/
lemma Store.HoldsMacros.of_scopes_eq (h : st.HoldsMacros macros ds) {st' : Store}
    (heq : st'.scopes[macros]? = st.scopes[macros]?) : st'.HoldsMacros macros ds := by
  obtain ⟨bindings, hscope, hrest⟩ := h
  exact ⟨bindings, heq.trans hscope, hrest⟩

/-- The names that can be seen from a scope without an outer scope are those that it binds, and they
are sorted. -/
lemma Store.names_visible {bindings : List (String × Value)} {scope : ScopeId}
    (h : st.scopes[scope]? = some ⟨bindings, none⟩) :
    ((st.visible scope).map Prod.fst).Pairwise (· < ·) ∧
      ∀ name, name ∈ (st.visible scope).map Prod.fst ↔ name ∈ bindings.map Prod.fst := by
  obtain ⟨hsorted, hmem⟩ := Assoc.names_foldl_putSorted bindings [] List.Pairwise.nil
  rw [Store.visible, h]
  exact ⟨hsorted, fun name => by simpa using hmem name⟩

end

/-! ## What nothing changes -/

/-- Calling a function along a list keeps a relation between the stores before and after that every
call keeps, as long as it can be chained. -/
lemma mapM_keeps {ε α β : Type} {R : Store → Store → Prop} (hrefl : ∀ st, R st st)
    (htrans : ∀ a b c, R a b → R b c → R a c) {f : α → Run ε β} (h : ∀ a, (f a).Keeps R)
    (as : List α) : (as.mapM f).Keeps R := by
  intro st
  induction as generalizing st with
  | nil =>
    rw [List.mapM_nil]
    exact .pure (hrefl st)
  | cons a as ih =>
    rw [List.mapM_cons]
    refine .andThen (h a st) fun b st₁ h₁ => .andThen ?_ fun bs st₂ h₂ => .pure h₂
    exact (ih st₁).mono (fun _ st₂ h₂ => htrans st st₁ st₂ h₁ h₂) fun st₂ h₂ =>
      htrans st st₁ st₂ h₁ h₂

/-- **Expanding macros changes no scope.** -/
theorem Program.expandMacros_extends (depth : Nat) (macros : ScopeId) (program : Program)
    (st : Store) : (program.expandMacros depth macros).Ensures st (fun _ st' => st.Extends st')
      st.Extends := by
  rw [Program.expandMacros, Block.replaceM_eq]
  have hlist := mapM_keeps Store.Extends.refl (fun _ _ _ => Store.Extends.trans)
    (expandAt_extends depth macros) (handedOverStmts program)
  exact .andThen (hlist st) fun _ _ h => .pure h

namespace Point

/-- A scope is **untouched** at a point: it is as it was, and not the scope of the point. -/
def Untouched (i : ScopeId) (s : Scope) (P : Point) : Prop :=
  P.store.scopes[i]? = some s ∧ i ≠ P.scope

section

variable {P Q : Point} {i : ScopeId} {s : Scope}

/-- A scope other than that of an evaluation stays as it is. -/
lemma Untouched.of_framed {scope : ScopeId} {st st' : Store} (h : st.scopes[i]? = some s)
    (hne : i ≠ scope) (hframed : Store.Framed scope st st') : st'.scopes[i]? = some s :=
  (hframed.scopes_eq i (Array.getElem?_eq_some_iff.mp h).1 hne).trans h

/-- A scope is untouched where the body of a function is evaluated. -/
lemma untouched_body {st : Store} (h : st.scopes[i]? = some s) (d : Nat) (block : Block)
    (outer : ScopeId) (pairs : List (String × Value)) : Untouched i s ⟨d, st.scopes.size,
      .stmts .null block, (st.enclose outer).2.bindAll st.scopes.size pairs⟩ := by
  have hlt := (Array.getElem?_eq_some_iff.mp h).1
  have hext : st.Extends ((st.enclose outer).2.bindAll st.scopes.size pairs) :=
    Store.extends_of_framed_new ((Store.Extends.refl _).framed st.scopes.size)
  exact ⟨(hext.scopes_eq i hlt).trans h, Nat.ne_of_lt hlt⟩

/-- A scope that is untouched at a point is untouched at its parts. -/
lemma Part.untouched (hpart : P.Part Q) (h : P.Untouched i s) : Q.Untouched i s := by
  obtain ⟨hscope, hne⟩ := h
  have expr {d : Nat} {scope : ScopeId} {e : Expr} {st st' : Store} {v : Value}
      (he : e.eval d scope st = .ok v st') (hne : i ≠ scope) (hst : st.scopes[i]? = some s) :
      st'.scopes[i]? = some s :=
    Untouched.of_framed hst hne ((Expr.eval_keeps Store.Framed.kept d e scope st).of_ok he)
  rcases hpart with hpart | hpart
  · cases hpart with
    | unary | left | test | callee | base | letBind | ret | item | key | unquoted =>
      exact ⟨hscope, hne⟩
    | right he | position he | value he => exact ⟨expr he hne hscope, hne⟩
  · cases hpart with
    | quoted | items | pairs | expr | first => exact ⟨hscope, hne⟩
    | yes he | no he | args _ he | restExprs he => exact ⟨expr he hne hscope, hne⟩
    | body _ hf hargs _ =>
      have hframed := (evalExprs_keeps Store.Framed.kept
        (fun e _ => Expr.eval_keeps Store.Framed.kept _ e _) _).of_ok hargs
      exact untouched_body (Untouched.of_framed (expr hf hne hscope) hne hframed) _ _ _ _
    | next hs _ =>
      have hframed := (Stmt.eval_keeps Store.Framed.kept _ _ _ _).of_ok hs
      exact ⟨Untouched.of_framed hscope hne hframed, hne⟩
    | restEntries hk _ he => exact ⟨expr he hne (expr hk hne hscope), hne⟩
    | restSplices hh =>
      have hframed := (spliceWith_keeps Store.Framed.kept
        (evalBlock_keeps Store.Framed.kept _) _ _).of_ok hh
      exact ⟨Untouched.of_framed hscope hne hframed, hne⟩

/-- **A scope that is untouched where an evaluation begins is untouched wherever it comes to.** -/
theorem Reaches.untouched (hreach : P.Reaches Q) (h : P.Untouched i s) : Q.Untouched i s := by
  induction hreach with
  | refl => exact h
  | tail _ hpart ih => exact hpart.untouched ih

end

end Point

/-- A scope is untouched where the body of a macro is evaluated. -/
lemma Expands.untouched {macros : ScopeId} {depth : Nat} {es : List Expr}
    {st : Store} {P : Point} (h : Expands macros depth es st P) {i : ScopeId} {s : Scope}
    (hs : st.scopes[i]? = some s) : P.Untouched i s := by
  induction h with
  | body hc hlen => exact Point.untouched_body hs _ _ _ _
  | next ha _ ih =>
    have hext := (expandAt_extends _ _ _ _).of_ok ha
    exact ih ((hext.scopes_eq i (Array.getElem?_eq_some_iff.mp hs).1).trans hs)

end QuoteLang
