import QuoteLang.Proofs.Replace
import QuoteLang.Proofs.Ensures
import QuoteLang.Expansion

set_option relaxedAutoImplicit false
set_option autoImplicit false

/-!
# What evaluation leaves as it is

Evaluation in a scope binds names in that scope and in the scopes it makes itself. Every other scope
stays as it is, and the scope itself keeps its outer scope and its names.

## Main definitions

* `Run.Keeps` — a run keeps a relation between the store before and the store after it.
* `Kept` — the relations that are kept by everything that evaluation in a scope does to the store.
* `Store.Extends` — a store has all scopes of another, unchanged, and perhaps more.
* `Store.Framed` — a store has all scopes of another unchanged but one, which has only grown.

## Main results

* `evalBlock_keeps`, `Expr.eval_keeps`, `Stmt.eval_keeps` — evaluation keeps all these relations.
* `Store.Framed.kept` — evaluation in a scope changes no other scope.
* `bodyValue_extends`, `expandCall_extends` — calls and expansions change no scope at all.
* `Store.Extends.lookup` — what is found in a scope stays the same if no scope is changed.
-/

namespace QuoteLang

open Run

/-! ## Relations that evaluation keeps -/

/-- A run keeps a relation between the store before it and the store after it. -/
def Run.Keeps {ε α : Type} (R : Store → Store → Prop) (x : Run ε α) : Prop :=
  ∀ st, x.Ensures st (fun _ st' => R st st') (R st)

/-- A relation between the stores before and after an evaluation in a scope, which is kept by
everything that such an evaluation does to the store. -/
structure Kept (R : ScopeId → Store → Store → Prop) : Prop where
  /-- Nothing has to be done. -/
  refl (scope : ScopeId) (st : Store) : R scope st st
  /-- One thing may be done after the other. -/
  trans {scope : ScopeId} {a b c : Store} : R scope a b → R scope b c → R scope a c
  /-- A name may be bound in the scope. -/
  bind (scope : ScopeId) (st : Store) (name : String) (v : Value) :
    R scope st (st.bind scope name v)
  /-- A function may be made that refers to the scope. -/
  newClosure (scope : ScopeId) (st : Store) (params : List String) (body : Block) :
    R scope st (st.newClosure params body scope).2
  /-- A line may be written. -/
  write (scope : ScopeId) (st : Store) (line : String) : R scope st (st.write line)
  /-- A function may be called: its body is evaluated in a new scope. -/
  call (scope : ScopeId) (st : Store) (outer : ScopeId) (pairs : List (String × Value))
    {st' : Store} :
    R st.scopes.size ((st.enclose outer).2.bindAll st.scopes.size pairs) st' → R scope st st'

section

variable {R : ScopeId → Store → Store → Prop} (hR : Kept R) {scope : ScopeId}

include hR

/-- What changes nothing keeps the relation. -/
lemma Run.Still.keeps {ε α : Type} {x : Run ε α} (h : x.Still) : x.Keeps (R scope) :=
  fun st => h.ensures (fun _ _ => hR.refl scope st) (hR.refl scope st)

/-- Two runs that keep the relation keep it in sequence. -/
lemma Run.Keeps.bind {ε α β : Type} {x : Run ε α} {f : α → Run ε β} (h : x.Keeps (R scope))
    (hf : ∀ a, (f a).Keeps (R scope)) : (x >>= f).Keeps (R scope) := by
  intro st
  refine .andThen (h st) fun a st₁ h₁ => ?_
  exact (hf a st₁).mono (fun _ _ h₂ => hR.trans h₁ h₂) fun _ h₂ => hR.trans h₁ h₂

/-- Calling a function along a list keeps the relation if each call does. -/
lemma Run.Keeps.mapM {ε α β : Type} {f : α → Run ε β} {xs : List α}
    (h : ∀ a ∈ xs, (f a).Keeps (R scope)) : (xs.mapM f).Keeps (R scope) := by
  induction xs with
  | nil => exact (Still.pure _).keeps hR
  | cons a xs ih =>
    rw [List.forall_mem_cons] at h
    rw [List.mapM_cons]
    refine .bind hR h.1 fun b => .bind hR (ih h.2) fun bs => ?_
    exact (Still.pure _).keeps hR

/-! ## Evaluation -/

/-- Calling a built-in function keeps the relation. -/
lemma Builtin.call_keeps (b : Builtin) (args : List Value) : (b.call args).Keeps (R scope) :=
  fun st => Builtin.call_ensures (hR.refl scope st) (hR.write scope st)

variable {deeper : Deeper}

/-- Statements keep the relation if each of them does. -/
lemma evalStmts_keeps {ss : List Stmt} (h : ∀ s ∈ ss, (s.evalWith deeper scope).Keeps (R scope))
    (before : Value) : (evalStmts deeper scope before ss).Keeps (R scope) := by
  induction ss generalizing before with
  | nil =>
    rw [evalStmts]
    exact (Still.pure _).keeps hR
  | cons s ss ih =>
    rw [List.forall_mem_cons] at h
    rw [evalStmts]
    refine .bind hR h.1 fun v => ?_
    split
    · exact (Still.pure _).keeps hR
    · exact ih h.2 v

/-- A list of expressions keeps the relation if each of them does. -/
lemma evalExprs_keeps {es : List Expr} (h : ∀ e ∈ es, (e.evalWith deeper scope).Keeps (R scope)) :
    (evalExprs deeper scope es).Keeps (R scope) := by
  induction es with
  | nil =>
    rw [evalExprs]
    exact (Still.pure _).keeps hR
  | cons e es ih =>
    rw [List.forall_mem_cons] at h
    rw [evalExprs]
    exact .bind hR h.1 fun v => .bind hR (ih h.2) fun vs => (Still.pure _).keeps hR

/-- Entries keep the relation if each key and value does. -/
lemma evalEntries_keeps {entries : List (Expr × Expr)}
    (h : ∀ e ∈ entries, (e.1.evalWith deeper scope).Keeps (R scope) ∧
      (e.2.evalWith deeper scope).Keeps (R scope)) (before : List (Key × Value)) :
    (evalEntries deeper scope before entries).Keeps (R scope) := by
  induction entries generalizing before with
  | nil =>
    rw [evalEntries]
    exact (Still.pure _).keeps hR
  | cons entry entries ih =>
    obtain ⟨k, e⟩ := entry
    rw [List.forall_mem_cons] at h
    rw [evalEntries]
    refine .bind hR h.1.1 fun kv => ?_
    split
    · exact (Still.raise _).keeps hR
    · exact .bind hR h.1.2 fun v => ih h.2 _

variable (hdeeper : ∀ block scope, (deeper block scope).Keeps (R scope))

include hdeeper

/-- The body of a function keeps the relation of every scope it is called from. -/
lemma bodyValue_keeps (c : Closure) (args : List Value) :
    (bodyValue deeper c args).Keeps (R scope) :=
  fun st => bodyValue_ensures ((hdeeper _ _ _).mono
    (fun v _ h => (Still.settle v.unwrapReturn).ensures (fun _ _ => hR.call scope st c.scope _ h)
      (hR.call scope st c.scope _ h))
    fun _ h => hR.call scope st c.scope _ h)

/-- A call keeps the relation. -/
lemma applyWith_keeps (callee : Value) (args : List Value) :
    (applyWith deeper callee args).Keeps (R scope) := by
  unfold applyWith
  split
  · split
    · exact bodyValue_keeps hR hdeeper _ _
    · exact (Still.raise _).keeps hR
  · exact .bind hR (Builtin.call_keeps hR _ _) fun _ => (Still.settle _).keeps hR
  · exact (Still.raise _).keeps hR

/-- Filling in a quotation keeps the relation. -/
lemma spliceWith_keeps (e : Expr) : (spliceWith deeper scope e).Keeps (R scope) := by
  unfold spliceWith
  split
  · exact (Still.pure _).keeps hR
  · exact .bind hR (hdeeper _ _) fun v => (still_toSyntax v).keeps hR

/-- A quotation keeps the relation. -/
lemma quoteCallWith_keeps (args : List Expr) :
    (quoteCallWith deeper scope args).Keeps (R scope) := by
  unfold quoteCallWith
  split
  · rw [quoteWith, Expr.replaceM_eq, bind_assoc]
    refine .bind hR (.mapM hR fun e _ => spliceWith_keeps hR hdeeper e) fun as => ?_
    exact (Still.pure _).keeps hR
  · exact (Still.raise _).keeps hR

/-- Every expression and every statement keeps the relation if what lies deeper does. -/
lemma evalWith_keeps : (∀ (e : Expr) scope, (e.evalWith deeper scope).Keeps (R scope)) ∧
    ∀ (s : Stmt) scope, (s.evalWith deeper scope).Keeps (R scope) := by
  apply Expr.induction
  case ident =>
    intro name scope
    rw [Expr.evalWith]
    exact (still_nameValue scope name).keeps hR
  case int | bool | str =>
    intro a scope
    rw [Expr.evalWith]
    exact (Still.pure _).keeps hR
  case unary =>
    intro op e ih scope
    rw [Expr.evalWith]
    exact .bind hR (ih scope) fun v => (op.still_apply v).keeps hR
  case binary =>
    intro op l r ihl ihr scope
    rw [Expr.evalWith]
    exact .bind hR (ihl scope) fun v => .bind hR (ihr scope) fun w => (op.still_apply v w).keeps hR
  case cond =>
    intro c yes no ihc ihyes ihno scope
    have hyes := evalStmts_keeps hR fun s hs => ihyes s hs scope
    cases no with
    | none =>
      rw [Expr.evalWith]
      refine .bind hR (ihc scope) fun t => ?_
      split
      · exact hyes _
      · exact (Still.pure _).keeps hR
    | some no =>
      rw [Expr.evalWith]
      refine .bind hR (ihc scope) fun t => ?_
      split
      · exact hyes _
      · exact evalStmts_keeps hR (fun s hs => ihno no rfl s hs scope) _
  case fnLit | macroLit =>
    intro params body _ scope
    rw [Expr.evalWith]
    exact .bind hR (fun st => hR.newClosure scope st params body) fun c => (Still.pure _).keeps hR
  case call =>
    intro f args ihf ihargs scope
    rw [Expr.evalWith]
    split
    · exact quoteCallWith_keeps hR hdeeper args
    · refine .bind hR (ihf scope) fun v => ?_
      refine .bind hR (evalExprs_keeps hR fun e he => ihargs e he scope) fun vs => ?_
      exact applyWith_keeps hR hdeeper v vs
  case array =>
    intro items ih scope
    rw [Expr.evalWith]
    refine .bind hR (evalExprs_keeps hR fun e he => ih e he scope) fun vs => ?_
    exact (Still.pure _).keeps hR
  case hash =>
    intro entries ih scope
    rw [Expr.evalWith]
    refine .bind hR (evalEntries_keeps hR
      (fun e he => ⟨(ih e he).1 scope, (ih e he).2 scope⟩) _) fun pairs => ?_
    exact (Still.pure _).keeps hR
  case index =>
    intro base position ihb ihp scope
    rw [Expr.evalWith]
    exact .bind hR (ihb scope) fun b => .bind hR (ihp scope) fun p => (still_indexInto b p).keeps hR
  case letBind =>
    intro name e ih scope
    rw [Stmt.evalWith]
    refine .bind hR (ih scope) fun v => ?_
    exact .bind hR (fun st => hR.bind scope st name v) fun _ => (Still.pure _).keeps hR
  case ret =>
    intro value ih scope
    cases value with
    | none =>
      rw [Stmt.evalWith]
      exact (Still.pure _).keeps hR
    | some e =>
      rw [Stmt.evalWith]
      exact .bind hR (ih e rfl scope) fun v => (Still.pure _).keeps hR
  case expr =>
    intro e ih scope
    rw [Stmt.evalWith]
    exact ih scope

end

section

variable {R : ScopeId → Store → Store → Prop} (hR : Kept R)

include hR

/-- **Blocks keep the relation**, at every depth. -/
theorem evalBlock_keeps (depth : Nat) (block : Block) (scope : ScopeId) :
    (evalBlock depth block scope).Keeps (R scope) := by
  induction depth generalizing block scope with
  | zero => exact fun _ => trivial
  | succ depth ih =>
    exact evalStmts_keeps hR (fun s _ => (evalWith_keeps hR ih).2 s scope) _

/-- **Expressions keep the relation**, at every depth. -/
theorem Expr.eval_keeps (depth : Nat) (e : Expr) (scope : ScopeId) :
    (e.eval depth scope).Keeps (R scope) :=
  (evalWith_keeps hR (evalBlock_keeps hR depth)).1 e scope

/-- **Statements keep the relation**, at every depth. -/
theorem Stmt.eval_keeps (depth : Nat) (s : Stmt) (scope : ScopeId) :
    (s.eval depth scope).Keeps (R scope) :=
  (evalWith_keeps hR (evalBlock_keeps hR depth)).2 s scope

end

/-! ## Frames -/

/-- A store has all scopes of another, unchanged, and perhaps more. -/
structure Store.Extends (st st' : Store) : Prop where
  /-- No scope is lost. -/
  size_le : st.scopes.size ≤ st'.scopes.size
  /-- Every scope is as it was. -/
  scopes_eq : ∀ i < st.scopes.size, st'.scopes[i]? = st.scopes[i]?

/-- A store has all scopes of another unchanged but one. That one has the outer scope it had, and
all names that it had. -/
structure Store.Framed (scope : ScopeId) (st st' : Store) : Prop where
  /-- No scope is lost. -/
  size_le : st.scopes.size ≤ st'.scopes.size
  /-- Every other scope is as it was. -/
  scopes_eq : ∀ i < st.scopes.size, i ≠ scope → st'.scopes[i]? = st.scopes[i]?
  /-- The scope itself has its outer scope and its names. -/
  own : ∀ s, st.scopes[scope]? = some s → ∃ s', st'.scopes[scope]? = some s' ∧ s'.outer = s.outer ∧
    ∀ name ∈ s.bindings.map Prod.fst, name ∈ s'.bindings.map Prod.fst

namespace Store

/-- A store extends itself. -/
lemma Extends.refl (st : Store) : st.Extends st :=
  ⟨Nat.le_refl _, fun _ _ => rfl⟩

/-- An extension of an extension is an extension. -/
lemma Extends.trans {a b c : Store} (hab : a.Extends b) (hbc : b.Extends c) : a.Extends c := by
  refine ⟨Nat.le_trans hab.size_le hbc.size_le, fun i hi => ?_⟩
  rw [hbc.scopes_eq i (Nat.lt_of_lt_of_le hi hab.size_le), hab.scopes_eq i hi]

/-- Where no scope is changed, no scope but one is. -/
lemma Extends.framed {st st' : Store} (h : st.Extends st') (scope : ScopeId) :
    Framed scope st st' := by
  refine ⟨h.size_le, fun i hi _ => h.scopes_eq i hi, fun s hs => ⟨s, ?_, rfl, fun _ hn => hn⟩⟩
  obtain ⟨hlt, -⟩ := Array.getElem?_eq_some_iff.mp hs
  rw [h.scopes_eq scope hlt, hs]

/-- Framed changes add up. -/
lemma Framed.trans {scope : ScopeId} {a b c : Store} (hab : Framed scope a b)
    (hbc : Framed scope b c) : Framed scope a c := by
  refine ⟨Nat.le_trans hab.size_le hbc.size_le, fun i hi hne => ?_, fun s hs => ?_⟩
  · rw [hbc.scopes_eq i (Nat.lt_of_lt_of_le hi hab.size_le) hne, hab.scopes_eq i hi hne]
  · obtain ⟨s₁, hs₁, houter₁, hnames₁⟩ := hab.own s hs
    obtain ⟨s₂, hs₂, houter₂, hnames₂⟩ := hbc.own s₁ hs₁
    exact ⟨s₂, hs₂, houter₂.trans houter₁, fun name hn => hnames₂ name (hnames₁ name hn)⟩

/-- Binding a name changes its scope only. -/
lemma Framed.bind (scope : ScopeId) (st : Store) (name : String) (v : Value) :
    Framed scope st (st.bind scope name v) := by
  refine ⟨by simp [Store.bind], fun i hi hne => ?_, fun s hs => ?_⟩
  · simp only [Store.bind, Array.getElem?_modify]
    rw [if_neg hne.symm]
  · have hs' : (st.bind scope name v).scopes[scope]? =
        some { s with bindings := Assoc.put name v s.bindings } := by
      simp only [Store.bind, Array.getElem?_modify, if_true, hs, Option.map_some]
    refine ⟨_, hs', rfl, fun other hother => ?_⟩
    rw [Assoc.keys_put]
    split
    · exact hother
    · exact List.mem_append_left _ hother

/-- Binding several names changes their scope only. -/
lemma Framed.bindAll (scope : ScopeId) (st : Store) (pairs : List (String × Value)) :
    Framed scope st (st.bindAll scope pairs) := by
  induction pairs generalizing st with
  | nil => exact (Extends.refl st).framed scope
  | cons p pairs ih => exact (Framed.bind scope st p.1 p.2).trans (ih _)

/-- Making a scope changes no scope. -/
lemma extends_enclose (st : Store) (outer : ScopeId) : st.Extends (st.enclose outer).2 := by
  refine ⟨by simp [enclose, newScope], fun i hi => ?_⟩
  simp only [enclose, newScope, Array.getElem?_push]
  rw [if_neg (Nat.ne_of_lt hi)]

/-- What happens in a new scope changes no scope that was there before. -/
lemma extends_of_framed_new {st st' : Store} {outer : ScopeId} {pairs : List (String × Value)}
    (h : Framed st.scopes.size ((st.enclose outer).2.bindAll st.scopes.size pairs) st') :
    st.Extends st' := by
  have hbind := (Framed.bindAll st.scopes.size (st.enclose outer).2 pairs).trans h
  have hnew := extends_enclose st outer
  refine ⟨Nat.le_trans hnew.size_le hbind.size_le, fun i hi => ?_⟩
  rw [hbind.scopes_eq i (Nat.lt_of_lt_of_le hi hnew.size_le) (Nat.ne_of_lt hi), hnew.scopes_eq i hi]

/-- **Frames**: evaluation in a scope changes no other scope that was there before. -/
theorem Framed.kept : Kept Framed where
  refl scope st := (Extends.refl st).framed scope
  trans := Framed.trans
  bind := Framed.bind
  newClosure scope st params body :=
    (show st.Extends (st.newClosure params body scope).2 from
      ⟨Nat.le_refl _, fun _ _ => rfl⟩).framed scope
  write scope st line :=
    (show st.Extends (st.write line) from ⟨Nat.le_refl _, fun _ _ => rfl⟩).framed scope
  call scope _ _ _ _ h := (extends_of_framed_new h).framed scope

/-- What is found in a scope stays the same if no scope is changed. -/
theorem Extends.lookup {st st' : Store} (h : st.Extends st') {scope : ScopeId}
    (hscope : scope < st.scopes.size) (name : String) :
    st'.lookup scope name = st.lookup scope name := by
  induction scope using Nat.strongRecOn with
  | _ scope ih =>
    rw [Store.lookup, Store.lookup, h.scopes_eq scope hscope]
    cases st.scopes[scope]? with
    | none => rfl
    | some s =>
      dsimp only
      cases s.bindings.lookup name with
      | some value => rfl
      | none =>
        cases s.outer with
        | none => rfl
        | some outer =>
          by_cases hlt : outer < scope
          · simp only [hlt, if_true]
            exact ih outer hlt (Nat.lt_trans hlt hscope)
          · simp only [hlt, if_false]

end Store

/-! ## Calls and expansions -/

/-- The body of a function changes no scope that was there before the call. -/
theorem bodyValue_extends (depth : Nat) (c : Closure) (args : List Value) (st : Store) :
    (bodyValue (evalBlock depth) c args).Ensures st (fun _ st' => st.Extends st') st.Extends :=
  bodyValue_ensures ((evalBlock_keeps Store.Framed.kept depth _ _ _).mono
    (fun v _ h => (Still.settle v.unwrapReturn).ensures
      (fun _ _ => Store.extends_of_framed_new h) (Store.extends_of_framed_new h))
    fun _ h => Store.extends_of_framed_new h)

/-- An expansion changes no scope that was there before. -/
theorem expandCall_extends (depth : Nat) (name : String) (c : Closure) (args : List Expr)
    (st : Store) :
    (expandCall depth name c args).Ensures st (fun _ st' => st.Extends st') st.Extends := by
  unfold expandCall
  split
  · refine .bind (.attempt ((bodyValue_extends depth c _ st).mono (fun v st' h => ?_)
      fun st' h e => h))
    cases v <;> exact h
  · exact Store.Extends.refl st

end QuoteLang
