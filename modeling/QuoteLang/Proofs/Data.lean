import QuoteLang.Proofs.Ensures
import QuoteLang.Proofs.Point

set_option relaxedAutoImplicit false
set_option autoImplicit false

/-!
# What holds of all data

Properties of values that an array or a hash has exactly if its parts have it. If such a property
holds of everything that is bound, and of every operand, it holds of everything that is computed and
bound.

Operands need the hypothesis because a choice may have the value of a `return` in one of its blocks,
which is on its way out of a function and not data.

## Main definitions

* `Hereditary` — the properties of values that are passed between data and their parts.
* `Value.Out` — a value has a property, or is on its way out of a function and wraps one that has.
* `Store.All` — all values that are bound in a store have a property.
* `Point.Ready`, `Node.Yields` — what has a property where an evaluation begins, and where it ends.
* `Point.Settles` — every operand that is met and has a value on its way out has the property.

## Main results

* `Point.ensures_yields` — what an evaluation computes and binds has the property.
* `Point.Part.ready`, `Point.Meets.value` — so do the operands that are met, and what is bound then.
-/

namespace QuoteLang

open Run

/-! ## Hereditary properties -/

/-- A property of values that arrays and hashes have exactly if their items and values have it, and
that holds of all other data. -/
structure Hereditary (V : Value → Prop) : Prop where
  /-- Integers have it. -/
  int (n : Int64) : V (.int n)
  /-- Truth values have it. -/
  bool (b : Bool) : V (.bool b)
  /-- Strings have it. -/
  str (s : String) : V (.str s)
  /-- Functions have it. -/
  function (c : Closure) : V (.function c)
  /-- Built-in functions have it. -/
  builtin (b : Builtin) : V (.builtin b)
  /-- Macros have it. -/
  macroFn (c : Closure) : V (.macroFn c)
  /-- Quotations have it. -/
  quote (e : Expr) : V (.quote e)
  /-- The missing value has it. -/
  null : V .null
  /-- An array has it if its items have it. -/
  array_iff {items : List Value} : V (.array items) ↔ ∀ v ∈ items, V v
  /-- A hash has it if its values have it. -/
  hash_iff {entries : List (Key × Value)} : V (.hash entries) ↔ ∀ e ∈ entries, V e.2
  /-- What is wrapped has it if the wrapping has it. -/
  of_returned {v : Value} : V (.returned v) → V v

/-- A value has a property, or is on its way out of a function and wraps a value that has it. -/
def Value.Out (V : Value → Prop) (v : Value) : Prop :=
  V v ∨ ∃ w, v = .returned w ∧ V w

/-- All values that are bound in a store have a property. -/
def Store.All (V : Value → Prop) (st : Store) : Prop :=
  ∀ (i : ScopeId) (s : Scope), st.scopes[i]? = some s → ∀ p ∈ s.bindings, V p.2

/-- The value that a run ends with has a property. -/
def Run.Gives {ε α : Type} (p : α → Prop) (x : Run ε α) : Prop :=
  ∀ st a st', x st = .ok a st' → p a

namespace Run

variable {ε α β : Type} {p : α → Prop}

/-- The run that changes nothing gives its value. -/
lemma Gives.pure {a : α} (h : p a) : (Pure.pure a : Run ε α).Gives p := by
  rintro st b st' hb
  cases hb
  exact h

/-- A fault gives nothing. -/
lemma Gives.raise (e : ε) : (Run.raise e : Run ε α).Gives p := by
  rintro st b st' hb
  cases hb

/-- Two runs in sequence give what the second gives. -/
lemma Gives.bind {q : β → Prop} {x : Run ε α} {f : α → Run ε β} (hx : x.Gives p)
    (hf : ∀ a, p a → (f a).Gives q) : (x >>= f).Gives q := by
  intro st b st' hb
  rw [bind_eq_ok] at hb
  obtain ⟨a, st₁, ha, hb⟩ := hb
  exact hf a (hx st a st₁ ha) st₁ b st' hb

/-- A run that changes nothing ensures what it gives. -/
lemma Still.ensures_gives {x : Run ε α} (h : x.Still) (hx : x.Gives p) {P : Store → Prop}
    {st : Store} (hst : P st) : x.Ensures st (fun a st' => p a ∧ P st') P :=
  h.ensures (fun a ha => ⟨hx st a st ha, hst⟩) hst

end Run

/-! ## Stores -/

/-- What is in a list after something was put in was there before, or is what was put in. -/
lemma Assoc.mem_put {κ ν : Type} [DecidableEq κ] {key : κ} {value : ν} {entries : List (κ × ν)}
    {p : κ × ν} (h : p ∈ Assoc.put key value entries) : p ∈ entries ∨ p = (key, value) := by
  induction entries with
  | nil => exact .inr (List.mem_singleton.mp h)
  | cons e rest ih =>
    rw [Assoc.put] at h
    split at h
    · rcases List.mem_cons.mp h with rfl | h
      · exact .inr rfl
      · exact .inl (List.mem_cons_of_mem _ h)
    · rcases List.mem_cons.mp h with rfl | h
      · exact .inl List.mem_cons_self
      · rcases ih h with h | h
        · exact .inl (List.mem_cons_of_mem _ h)
        · exact .inr h

namespace Store.All

variable {V : Value → Prop} {st : Store}

/-- A store with the same scopes binds the same values. -/
lemma of_scopes_eq {st' : Store} (h : st.All V) (heq : st'.scopes = st.scopes) : st'.All V := by
  rw [Store.All, heq]
  exact h

/-- What is bound after a name has been bound was bound before, or is what was bound. -/
lemma bind (h : st.All V) (scope : ScopeId) (name : String) {v : Value} (hv : V v) :
    (st.bind scope name v).All V := by
  intro i s hs p hp
  simp only [Store.bind, Array.getElem?_modify] at hs
  split at hs
  · rw [Option.map_eq_some_iff] at hs
    obtain ⟨s', hs', rfl⟩ := hs
    rcases Assoc.mem_put hp with hp | rfl
    · exact h i s' hs' p hp
    · exact hv
  · exact h i s hs p hp

/-- Binding several values that have a property. -/
lemma bindAll (h : st.All V) (scope : ScopeId) {pairs : List (String × Value)}
    (hpairs : ∀ p ∈ pairs, V p.2) : (st.bindAll scope pairs).All V := by
  induction pairs generalizing st with
  | nil => exact h
  | cons p pairs ih =>
    rw [List.forall_mem_cons] at hpairs
    exact ih (h.bind scope p.1 hpairs.1) hpairs.2

/-- A new scope binds nothing. -/
lemma newScope (h : st.All V) (outer : Option ScopeId) : (st.newScope outer).2.All V := by
  intro i s hs p hp
  simp only [Store.newScope, Array.getElem?_push] at hs
  split at hs
  · cases hs
    cases hp
  · exact h i s hs p hp

/-- The scope for a call, with the parameters bound in it. -/
lemma call (h : st.All V) {c : Closure} {args : List Value} (hargs : ∀ v ∈ args, V v) :
    ((st.enclose c.scope).2.bindAll st.scopes.size (c.params.zip args)).All V :=
  (h.newScope _).bindAll _ fun p hp => hargs p.2 (List.of_mem_zip hp).2

/-- What is found in a store has the property. -/
lemma lookup (h : st.All V) {scope : ScopeId} {name : String} {v : Value}
    (hv : st.lookup scope name = some v) : V v := by
  induction scope using Nat.strongRecOn with
  | _ scope ih =>
    rw [Store.lookup] at hv
    split at hv
    · cases hv
    · rename_i s hs
      split at hv
      · rename_i w hw
        cases hv
        exact h scope s hs (name, v) (Assoc.mem_of_lookup hw)
      · split at hv
        · cases hv
        · rename_i outer _
          split at hv
          · rename_i hlt
            exact ih outer hlt hv
          · cases hv

end Store.All

/-! ## Operators, indexing, names and built-in functions -/

section

variable {V : Value → Prop} (hV : Hereditary V)

/-- Settling on a value gives that value. -/
lemma gives_settle {v : Value} (hv : V v) : (Run.settle v).Gives V := by
  cases v with
  | error message => exact .raise _
  | _ => exact .pure hv

include hV

/-- What is unwrapped after a function or a program has the property. -/
lemma Value.Out.unwrapReturn {v : Value} (h : v.Out V) : V v.unwrapReturn := by
  rcases h with h | ⟨w, rfl, hw⟩
  · cases v with
    | returned w => exact hV.of_returned h
    | _ => exact h
  · exact hw

/-- An operator before its operand gives data. -/
lemma UnaryOp.gives_apply (op : UnaryOp) (v : Value) : (op.apply v).Gives V := by
  unfold UnaryOp.apply
  split
  · exact .pure (hV.bool _)
  · exact .pure (hV.bool _)
  · exact .pure (hV.bool _)
  · exact .pure (hV.int _)
  · exact .raise _

/-- An operator between integers gives an integer or a truth value. -/
lemma BinaryOp.gives_applyInt (op : BinaryOp) (l r : Int64) : (op.applyInt l r).Gives V := by
  cases op
  case add | sub | mul => exact .pure (hV.int _)
  case lt | gt | eq | ne => exact .pure (hV.bool _)
  case div =>
    rw [BinaryOp.applyInt]
    split
    · exact .raise _
    · exact .pure (hV.int _)

/-- An operator between its operands gives data. -/
lemma BinaryOp.gives_apply (op : BinaryOp) (l r : Value) : (op.apply l r).Gives V := by
  unfold BinaryOp.apply
  split
  · exact BinaryOp.gives_applyInt hV _ _ _
  · exact .pure (hV.bool _)
  · exact .pure (hV.bool _)
  · exact .pure (hV.str _)
  · split
    · exact .raise _
    · exact .raise _

/-- What is found at a place that may be missing has the property. -/
lemma holds_getD {o : Option Value} (h : ∀ v ∈ o, V v) : V (o.getD .null) := by
  cases o with
  | none => exact hV.null
  | some v => exact h v rfl

/-- Indexing gives a part of what is indexed, or nothing. -/
lemma gives_indexInto {base position : Value} (h : V base) :
    (indexInto base position).Gives V := by
  unfold indexInto
  split
  · rename_i items place
    refine gives_settle ?_
    unfold itemAt
    split
    · exact hV.null
    · exact holds_getD hV fun v hv => hV.array_iff.mp h v (List.mem_of_getElem? hv)
  · rename_i entries position
    split
    · rename_i key _
      refine gives_settle (holds_getD hV fun v hv => ?_)
      exact hV.hash_iff.mp h (key, v) (Assoc.mem_of_lookup hv)
    · exact .raise _
  · exact .raise _

/-- A built-in function gives data, or parts of its arguments. -/
lemma Builtin.gives_call {b : Builtin} {args : List Value} (hargs : ∀ v ∈ args, V v) :
    (b.call args).Gives V := by
  have items {b : Builtin} {v : Value} (hv : V v) :
      (b.itemsOf v).Gives fun items => ∀ w ∈ items, V w := by
    cases v with
    | array items => exact .pure (hV.array_iff.mp hv)
    | _ => exact .raise _
  unfold Builtin.call
  split
  · unfold Builtin.lengthOf
    split
    · exact .pure (hV.int _)
    · exact .pure (hV.int _)
    · exact .raise _
  · refine .bind (items (hargs _ List.mem_cons_self)) fun vs hvs => .pure ?_
    exact holds_getD hV fun v hv => hvs v (List.mem_of_head? hv)
  · refine .bind (items (hargs _ List.mem_cons_self)) fun vs hvs => .pure ?_
    exact holds_getD hV fun v hv => hvs v (List.mem_of_getLast? hv)
  · refine .bind (items (hargs _ List.mem_cons_self)) fun vs hvs => .pure ?_
    exact hV.array_iff.mpr fun v hv => hvs v (List.mem_of_mem_drop hv)
  · rename_i v item
    have hitem : V item := hargs item (by simp)
    refine .bind (items (hargs _ List.mem_cons_self)) fun vs hvs => .pure ?_
    rw [hV.array_iff, List.forall_mem_append]
    exact ⟨hvs, by simpa using hitem⟩
  · have hwrite (line : String) :
        (Run.update (·.write line) : Run Fault Unit).Gives fun _ => True :=
      fun _ _ _ _ => trivial
    exact .bind (hwrite _) fun _ _ => .pure hV.null
  · exact .raise _

end

/-! ## Evaluation -/

/-- Whether an expression is a choice, whose value may be on its way out of a function. -/
def Expr.isCond : Expr → Bool
  | .cond _ _ _ => true
  | _ => false

/-- What has the property where the evaluation of a node begins: the value before some statements,
unless it is on its way out, and the entries that have been put in. -/
def Node.Begins (V : Value → Prop) : Node → Prop
  | stmts before _ => before.Out V
  | entries before _ => ∀ e ∈ before, V e.2
  | _ => True

/-- What has the property where the evaluation of a node has ended with a value. Choices and
statements may have a value on its way out. -/
def Node.Yields (V : Value → Prop) : (n : Node) → n.Result → Prop
  | expr e => fun (v : Value) => if e.isCond then v.Out V else V v
  | stmt _ => fun (v : Value) => v.Out V
  | stmts _ _ => fun (v : Value) => v.Out V
  | exprs _ => fun (vs : List Value) => ∀ v ∈ vs, V v
  | entries _ _ => fun (pairs : List (Key × Value)) => ∀ e ∈ pairs, V e.2
  | splices _ => fun _ => True

namespace Point

/-- Everything has the property where an evaluation begins. -/
structure Ready (V : Value → Prop) (P : Point) : Prop where
  /-- What is bound has it. -/
  store : P.store.All V
  /-- What the node begins with has it. -/
  node : P.node.Begins V

/-- Every choice that is met as an operand has the property if its value is not on its way out, or
if it wraps a value that has the property. -/
def Settles (V : Value → Prop) (P : Point) : Prop :=
  ∀ d s e st v st', P.Meets ⟨d, s, .expr e, st⟩ → e.isCond = true → e.eval d s st = .ok v st' →
    v.Out V → V v

/-- What an evaluation computes and binds has the property. -/
def EnsuresYields (V : Value → Prop) (P : Point) : Prop :=
  (P.node.eval P.depth P.scope).Ensures P.store
    (fun r st' => P.node.Yields V r ∧ st'.All V) (Store.All V)

/-- What is met in a part is met in the whole. -/
lemma Settles.of_part {V : Value → Prop} {P Q : Point} (h : P.Settles V) (hpart : P.Part Q) :
    Q.Settles V :=
  fun d s e st v st' hmeets => h d s e st v st' (hmeets.of_part hpart)

section

variable {V : Value → Prop} (hV : Hereditary V) {d : Nat} {s : ScopeId} {st : Store}

/-- The parts of a point yield what has the property, as soon as everything has it where they
begin. -/
structure PartsYield (V : Value → Prop) (P : Point) : Prop where
  /-- An operand has the property. -/
  operand {d : Nat} {s : ScopeId} {e : Expr} {st : Store} (h : P.Operand ⟨d, s, .expr e, st⟩)
    (hst : st.All V) : (e.evalWith (evalBlock d) s).Ensures st
      (fun v st' => e.eval d s st = .ok v st' ∧ V v ∧ st'.All V) (Store.All V)
  /-- Another part yields what it has to. -/
  inner {Q : Point} (h : P.Inner Q) (hQ : Q.Ready V) : Q.EnsuresYields V

/-- The parts yield what has the property if every point among them does. -/
lemma PartsYield.of_parts {P : Point} (hsettles : P.Settles V)
    (h : ∀ Q, P.Part Q → Q.Ready V → Q.Settles V → Q.EnsuresYields V) : P.PartsYield V where
  operand {d s e st} hop hst := by
    have hyields := h _ (.inl hop) ⟨hst, trivial⟩ (hsettles.of_part (.inl hop))
    refine (Run.Ensures.with_eq hyields).imp ?_
    rintro v st' ⟨heq, hv, hst'⟩
    refine ⟨heq, ?_, hst'⟩
    by_cases hcond : e.isCond = true
    · rw [Node.Yields, if_pos hcond] at hv
      exact hsettles d s e st v st' hop.meets hcond heq hv
    · rw [Node.Yields, if_neg hcond] at hv
      exact hv
  inner hin hQ := h _ (.inr hin) hQ (hsettles.of_part (.inr hin))

/-- A list of statements yields what has the property, or what is on its way out. -/
lemma ensures_stmts {before : Value} {ss : List Stmt} (hst : st.All V) (hbefore : before.Out V)
    (h : PartsYield V ⟨d, s, .stmts before ss, st⟩) :
    EnsuresYields V ⟨d, s, .stmts before ss, st⟩ := by
  show (evalStmts (evalBlock d) s before ss).Ensures st
    (fun v st' => v.Out V ∧ st'.All V) (Store.All V)
  cases ss with
  | nil =>
    rw [evalStmts]
    exact .pure ⟨hbefore, hst⟩
  | cons stmt ss =>
    rw [evalStmts]
    have hfirst := h.inner .first ⟨hst, trivial⟩
    refine .andThen (Run.Ensures.with_eq hfirst) ?_
    rintro v st₁ ⟨heq, hv, hst₁⟩
    by_cases hreturned : v.isReturned = true
    · rw [if_pos hreturned]
      exact .pure ⟨hv, hst₁⟩
    · rw [if_neg hreturned]
      exact h.inner (.next heq (by simpa using hreturned)) ⟨hst₁, hv⟩

/-- A list of expressions yields values that have the property. -/
lemma ensures_exprs {es : List Expr} (hst : st.All V) (h : PartsYield V ⟨d, s, .exprs es, st⟩) :
    EnsuresYields V ⟨d, s, .exprs es, st⟩ := by
  show (evalExprs (evalBlock d) s es).Ensures st (fun vs st' => (∀ v ∈ vs, V v) ∧ st'.All V)
    (Store.All V)
  cases es with
  | nil =>
    rw [evalExprs]
    exact .pure ⟨by simp, hst⟩
  | cons e es =>
    rw [evalExprs]
    refine .andThen (h.operand .item hst) ?_
    rintro v st₁ ⟨heq, hv, hst₁⟩
    refine .andThen (h.inner (.restExprs heq) ⟨hst₁, trivial⟩) ?_
    rintro vs st₂ ⟨hvs, hst₂⟩
    exact .pure ⟨List.forall_mem_cons.mpr ⟨hv, hvs⟩, hst₂⟩

/-- Entries have values that have the property. -/
lemma ensures_entries {before : List (Key × Value)} {rest : List (Expr × Expr)} (hst : st.All V)
    (hbefore : ∀ e ∈ before, V e.2) (h : PartsYield V ⟨d, s, .entries before rest, st⟩) :
    EnsuresYields V ⟨d, s, .entries before rest, st⟩ := by
  show (evalEntries (evalBlock d) s before rest).Ensures st
    (fun pairs st' => (∀ e ∈ pairs, V e.2) ∧ st'.All V) (Store.All V)
  cases rest with
  | nil =>
    rw [evalEntries]
    exact .pure ⟨hbefore, hst⟩
  | cons pair rest =>
    obtain ⟨k, e⟩ := pair
    rw [evalEntries]
    refine .andThen (h.operand .key hst) ?_
    rintro v st₁ ⟨hk, hv, hst₁⟩
    split
    · exact hst₁
    · rename_i key hkey
      refine .andThen (h.operand (.value hk hkey) hst₁) ?_
      rintro w st₂ ⟨he, hw, hst₂⟩
      refine h.inner (.restEntries hk hkey he) ⟨hst₂, fun p hp => ?_⟩
      rcases Assoc.mem_put hp with hp | rfl
      · exact hbefore p hp
      · exact hw

/-- Filling in a quotation binds what has the property. -/
lemma ensures_splice {h : Expr} {hs : List Expr} (hst : st.All V)
    (hparts : PartsYield V ⟨d, s, .splices (h :: hs), st⟩) :
    (spliceWith (evalBlock d) s h).Ensures st (fun _ st' => st'.All V) (Store.All V) := by
  unfold spliceWith
  split
  · exact .pure hst
  · rename_i arg harg
    cases d with
    | zero => trivial
    | succ d =>
      refine .bind ?_
      rw [evalBlock, evalStmts_expr]
      refine (hparts.operand (.unquoted harg) hst).imp ?_
      rintro v st₁ ⟨-, -, hst₁⟩
      exact (still_toSyntax v).ensures (fun _ _ => hst₁) hst₁

/-- What a quotation hands over binds what has the property. -/
lemma ensures_splices {hs : List Expr} (hst : st.All V)
    (h : PartsYield V ⟨d, s, .splices hs, st⟩) : EnsuresYields V ⟨d, s, .splices hs, st⟩ := by
  show (hs.mapM (spliceWith (evalBlock d) s)).Ensures st
    (fun _ st' => True ∧ st'.All V) (Store.All V)
  cases hs with
  | nil =>
    rw [List.mapM_nil]
    exact .pure ⟨trivial, hst⟩
  | cons e hs =>
    rw [List.mapM_cons]
    refine .andThen (ensures_splice hst h).with_eq ?_
    rintro a st₁ ⟨heq, hst₁⟩
    refine .andThen (h.inner (.restSplices heq) ⟨hst₁, trivial⟩) ?_
    rintro as st₂ ⟨-, hst₂⟩
    exact .pure ⟨trivial, hst₂⟩

include hV

/-- The value of a name has the property. -/
lemma ensures_nameValue (hst : st.All V) (name : String) :
    (nameValue s name).Ensures st (fun v st' => V v ∧ st'.All V) (Store.All V) := by
  refine .bind (.get ?_)
  split
  · rename_i v hv
    exact (Still.settle v).ensures_gives (gives_settle (hst.lookup hv)) hst
  · split
    · exact .pure ⟨hV.builtin _, hst⟩
    · exact hst

/-- Statements yield what has the property, or what is on its way out. -/
lemma ensures_stmt {stmt : Stmt} (hst : st.All V) (h : PartsYield V ⟨d, s, .stmt stmt, st⟩) :
    EnsuresYields V ⟨d, s, .stmt stmt, st⟩ := by
  show (stmt.evalWith (evalBlock d) s).Ensures st (fun v st' => v.Out V ∧ st'.All V) (Store.All V)
  cases stmt with
  | letBind name e =>
    rw [Stmt.evalWith]
    refine .andThen (h.operand .letBind hst) ?_
    rintro v st₁ ⟨-, hv, hst₁⟩
    exact .bind (show _ ∧ _ from ⟨.inl hv, hst₁.bind s name hv⟩)
  | ret value =>
    cases value with
    | none =>
      rw [Stmt.evalWith]
      exact .pure ⟨.inr ⟨_, rfl, hV.null⟩, hst⟩
    | some e =>
      rw [Stmt.evalWith]
      refine .andThen (h.operand .ret hst) ?_
      rintro v st₁ ⟨-, hv, hst₁⟩
      exact .pure ⟨.inr ⟨v, rfl, hv⟩, hst₁⟩
  | expr e =>
    rw [Stmt.evalWith]
    refine (h.inner .expr ⟨hst, trivial⟩).imp ?_
    rintro v st₁ ⟨hv, hst₁⟩
    refine ⟨?_, hst₁⟩
    rw [Node.Yields] at hv
    split at hv
    · exact hv
    · exact .inl hv

/-- A call yields what has the property, if what it calls and the arguments have it. -/
lemma ensures_apply {f : Expr} {args : List Expr} {st₁ st₂ : Store} {v : Value} {vs : List Value}
    (h : PartsYield V ⟨d, s, .expr (.call f args), st⟩) (hquote : f.isQuoteName = false)
    (hf : f.eval d s st = .ok v st₁) (hargs : evalExprs (evalBlock d) s args st₁ = .ok vs st₂)
    (hvs : ∀ v ∈ vs, V v) (hst₂ : st₂.All V) :
    (applyWith (evalBlock d) v vs).Ensures st₂ (fun v st' => V v ∧ st'.All V) (Store.All V) := by
  unfold applyWith
  split
  · rename_i c
    split
    · rename_i hlen
      refine bodyValue_ensures ?_
      cases d with
      | zero => trivial
      | succ d =>
        refine (h.inner (.body hquote hf hargs hlen) ⟨hst₂.call hvs, .inl hV.null⟩).imp ?_
        rintro w st₃ ⟨hw, hst₃⟩
        exact (Still.settle _).ensures_gives (gives_settle (Value.Out.unwrapReturn hV hw)) hst₃
    · exact hst₂
  · rename_i b
    have hstore : (b.call vs).Ensures st₂ (fun _ st' => st'.All V) (Store.All V) :=
      Builtin.call_ensures hst₂ fun _ => hst₂.of_scopes_eq rfl
    refine .andThen hstore.with_eq ?_
    rintro w st₃ ⟨heq, hst₃⟩
    have hw : V w := Builtin.gives_call hV hvs _ _ _ heq
    exact (Still.settle w).ensures_gives (gives_settle hw) hst₃
  · exact hst₂

/-- Expressions yield what has the property; choices may yield what is on its way out. -/
lemma ensures_expr {e : Expr} (hst : st.All V) (h : PartsYield V ⟨d, s, .expr e, st⟩) :
    EnsuresYields V ⟨d, s, .expr e, st⟩ := by
  show (e.evalWith (evalBlock d) s).Ensures st
    (fun v st' => (if e.isCond then v.Out V else V v) ∧ st'.All V) (Store.All V)
  cases e with
  | ident name =>
    rw [Expr.evalWith]
    exact ensures_nameValue hV hst name
  | int n =>
    rw [Expr.evalWith]
    exact .pure ⟨hV.int n, hst⟩
  | bool b =>
    rw [Expr.evalWith]
    exact .pure ⟨hV.bool b, hst⟩
  | str text =>
    rw [Expr.evalWith]
    exact .pure ⟨hV.str text, hst⟩
  | unary op e =>
    rw [Expr.evalWith]
    refine .andThen (h.operand .unary hst) ?_
    rintro v st₁ ⟨-, -, hst₁⟩
    exact (op.still_apply v).ensures_gives (op.gives_apply hV v) hst₁
  | binary op l r =>
    rw [Expr.evalWith]
    refine .andThen (h.operand .left hst) ?_
    rintro v st₁ ⟨hl, -, hst₁⟩
    refine .andThen (h.operand (.right hl) hst₁) ?_
    rintro w st₂ ⟨-, -, hst₂⟩
    exact (op.still_apply v w).ensures_gives (op.gives_apply hV v w) hst₂
  | cond c yes no =>
    cases no with
    | none =>
      rw [Expr.evalWith]
      refine .andThen (h.operand .test hst) ?_
      rintro t st₁ ⟨hc, -, hst₁⟩
      split
      · rename_i ht
        exact h.inner (.yes hc ht) ⟨hst₁, .inl hV.null⟩
      · exact .pure ⟨.inl hV.null, hst₁⟩
    | some no =>
      rw [Expr.evalWith]
      refine .andThen (h.operand .test hst) ?_
      rintro t st₁ ⟨hc, -, hst₁⟩
      split
      · rename_i ht
        exact h.inner (.yes hc ht) ⟨hst₁, .inl hV.null⟩
      · rename_i ht
        exact h.inner (.no hc (by simpa using ht)) ⟨hst₁, .inl hV.null⟩
  | fnLit params body =>
    rw [Expr.evalWith]
    exact .bind (show _ ∧ _ from ⟨hV.function _, hst.of_scopes_eq rfl⟩)
  | macroLit params body =>
    rw [Expr.evalWith]
    exact .bind (show _ ∧ _ from ⟨hV.macroFn _, hst.of_scopes_eq rfl⟩)
  | call f args =>
    rw [Expr.evalWith]
    split
    · rename_i hquote
      unfold quoteCallWith
      split
      · rename_i e
        rw [quoteWith, Expr.replaceM_eq, bind_assoc]
        refine .andThen (h.inner (.quoted hquote) ⟨hst, trivial⟩) ?_
        rintro as st₁ ⟨-, hst₁⟩
        exact .pure ⟨hV.quote _, hst₁⟩
      · exact hst
    · rename_i hquote
      have hquote : f.isQuoteName = false := by simpa using hquote
      refine .andThen (h.operand (.callee hquote) hst) ?_
      rintro v st₁ ⟨hf, -, hst₁⟩
      have hexprs := h.inner (.args hquote hf) ⟨hst₁, trivial⟩
      refine .andThen (Run.Ensures.with_eq hexprs) ?_
      rintro vs st₂ ⟨hargs, hvs, hst₂⟩
      exact ensures_apply hV h hquote hf hargs hvs hst₂
  | array items =>
    rw [Expr.evalWith]
    refine .andThen (h.inner .items ⟨hst, trivial⟩) ?_
    rintro vs st₁ ⟨hvs, hst₁⟩
    exact .pure ⟨hV.array_iff.mpr hvs, hst₁⟩
  | hash pairs =>
    rw [Expr.evalWith]
    refine .andThen (h.inner .pairs ⟨hst, List.forall_mem_nil _⟩) ?_
    rintro entries st₁ ⟨hentries, hst₁⟩
    exact .pure ⟨hV.hash_iff.mpr hentries, hst₁⟩
  | index b p =>
    rw [Expr.evalWith]
    refine .andThen (h.operand .base hst) ?_
    rintro v st₁ ⟨hb, hv, hst₁⟩
    refine .andThen (h.operand (.position hb) hst₁) ?_
    rintro w st₂ ⟨-, -, hst₂⟩
    exact (still_indexInto v w).ensures_gives (gives_indexInto hV hv) hst₂

/-- **What is computed and bound has the property.**

**Proof sketch.** Induction over points. The operands have the property because the choices among
them do so by hypothesis, and all other expressions by induction. -/
theorem ensures_yields (P : Point) (hready : P.Ready V) (hsettles : P.Settles V) :
    P.EnsuresYields V := by
  induction P using Point.induction with
  | h P ih =>
    have hparts := PartsYield.of_parts hsettles ih
    obtain ⟨d, s, node, st⟩ := P
    cases node with
    | expr e => exact ensures_expr hV hready.store hparts
    | stmt stmt => exact ensures_stmt hV hready.store hparts
    | stmts before ss => exact ensures_stmts hready.store hready.node hparts
    | exprs es => exact ensures_exprs hready.store hparts
    | entries before rest => exact ensures_entries hready.store hready.node hparts
    | splices hs => exact ensures_splices hready.store hparts

/-! ## What is met -/

/-- All parts of a point yield what has the property. -/
lemma partsYield {P : Point} (hsettles : P.Settles V) : P.PartsYield V :=
  .of_parts hsettles fun Q _ hQ hQ' => ensures_yields hV Q hQ hQ'

/-- Everything has the property where the evaluation of a part begins. -/
theorem Part.ready {P Q : Point} (hpart : P.Part Q) (hready : P.Ready V) (hsettles : P.Settles V) :
    Q.Ready V := by
  have hparts := partsYield hV hsettles
  have after {d : Nat} {s : ScopeId} {e : Expr} {st st' : Store} {v : Value}
      (hop : P.Operand ⟨d, s, .expr e, st⟩) (hst : st.All V) (he : e.eval d s st = .ok v st') :
      V v ∧ st'.All V := ((hparts.operand hop hst).of_ok he).2
  have hst := hready.store
  rcases hpart with hpart | hpart
  · cases hpart with
    | unary | left | test | callee | base | letBind | ret | item | key | unquoted =>
      exact ⟨hst, trivial⟩
    | right hl => exact ⟨(after .left hst hl).2, trivial⟩
    | position hb => exact ⟨(after .base hst hb).2, trivial⟩
    | value hk hkey => exact ⟨(after .key hst hk).2, trivial⟩
  · cases hpart with
    | yes hc ht | no hc ht => exact ⟨(after .test hst hc).2, .inl hV.null⟩
    | quoted | items | expr | first => exact ⟨hst, trivial⟩
    | pairs => exact ⟨hst, List.forall_mem_nil _⟩
    | args hquote hf => exact ⟨(after (.callee hquote) hst hf).2, trivial⟩
    | body hquote hf hargs hlen =>
      have hst₁ := (after (.callee hquote) hst hf).2
      have hvs := (hparts.inner (.args hquote hf) ⟨hst₁, trivial⟩).of_ok hargs
      exact ⟨hvs.2.call hvs.1, .inl hV.null⟩
    | next hs hv =>
      have hfirst := (hparts.inner .first ⟨hst, trivial⟩).of_ok hs
      exact ⟨hfirst.2, hfirst.1⟩
    | restExprs he => exact ⟨(after .item hst he).2, trivial⟩
    | restEntries hk hkey he =>
      have hst₁ := (after .key hst hk).2
      have hw := after (.value hk hkey) hst₁ he
      refine ⟨hw.2, fun p hp => ?_⟩
      rcases Assoc.mem_put hp with hp | rfl
      · exact hready.node p hp
      · exact hw.1
    | restSplices hh => exact ⟨(ensures_splice hst hparts).of_ok hh, trivial⟩

/-- **Every operand that is met has the property**, and so has what is bound then. -/
theorem Meets.value {P : Point} {e : Expr} {v : Value} {st' : Store} (hready : P.Ready V)
    (hsettles : P.Settles V) (hmeets : P.Meets ⟨d, s, .expr e, st⟩)
    (he : e.eval d s st = .ok v st') : V v ∧ st'.All V := by
  obtain ⟨R, hreach, hop⟩ := hmeets
  induction hreach using Relation.ReflTransGen.head_induction_on with
  | refl =>
    have hst := (Part.ready hV (.inl hop) hready hsettles).store
    exact (((partsYield hV hsettles).operand hop hst).of_ok he).2
  | head hpart hreach ih => exact ih (Part.ready hV hpart hready hsettles) (hsettles.of_part hpart)

end

end Point

end QuoteLang
