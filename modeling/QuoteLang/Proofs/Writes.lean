import QuoteLang.Proofs.Frame
import QuoteLang.Proofs.Point

set_option relaxedAutoImplicit false
set_option autoImplicit false

/-!
# What evaluation writes

Of the scopes that were there before, evaluation changes its own only, and calls change none. What
it writes in its own scope it writes by the `let`s that are evaluated directly in it: those in the
blocks of choices and in the arguments of `unquote`, but none in the body of a function.

## Main definitions

* `Store.bound` — what a scope itself binds a name to.
* `Point.InScope` — the points that are reached without leaving the scope.
* `Point.Lets` — the `let`s that are evaluated directly in the scope, with the values they bind.
* `Store.WrittenBy` — a scope binds what it did before, or what some `let`s have bound in it.
* `Point.Writes` — what an evaluation does to the scopes that were there before it.

## Main results

* `Point.ensures_of_parts` — a property of stores that the parts in the scope, calls and the `let`
  of a point keep is kept at the point.
* `eval_apply_writes` — evaluation changes its own scope only, and there only by its `let`s; calls
  change no scope at all.
-/

namespace QuoteLang

open Run

/-- What a scope itself binds a name to, whatever the scopes around it do. -/
def Store.bound (st : Store) (scope : ScopeId) (name : String) : Option Value :=
  st.scopes[scope]?.bind fun s => s.bindings.lookup name

/-- Binding a name decides what the scope binds it to. -/
lemma Store.bound_bind_self {st : Store} {scope : ScopeId} (h : scope < st.scopes.size)
    (name : String) (v : Value) : (st.bind scope name v).bound scope name = some v := by
  have hscope := Array.getElem?_eq_getElem h
  simp only [bound, bind, Array.getElem?_modify, if_true, hscope, Option.map_some,
    Option.bind_some]
  exact Assoc.lookup_put_self name v _

/-- Binding a name changes no other name. -/
lemma Store.bound_bind_of_ne (st : Store) (scope : ScopeId) {name other : String}
    (h : other ≠ name) (v : Value) : (st.bind scope name v).bound scope other =
      st.bound scope other := by
  simp only [bound, bind, Array.getElem?_modify, if_true]
  cases st.scopes[scope]? with
  | none => rfl
  | some s => exact Assoc.lookup_put_of_ne h v _

/-! ## Calls -/

/-- **Calls change no scope** that was there before. -/
theorem applyWith_extends (depth : Nat) (callee : Value) (args : List Value) (st : Store) :
    (applyWith (evalBlock depth) callee args).Ensures st (fun _ st' => st.Extends st')
      st.Extends := by
  have hsame : st.Extends st := Store.Extends.refl st
  unfold applyWith
  split
  · split
    · exact bodyValue_extends depth _ args st
    · exact hsame
  · refine .andThen (Builtin.call_ensures hsame fun _ => ⟨Nat.le_refl _, fun _ _ => rfl⟩) ?_
    exact fun v st' h => (Still.settle v).ensures (fun _ _ => h) h
  · exact hsame

/-! ## Parts in the scope -/

namespace Point

/-- A property of stores is kept by all that an evaluation at a point is made of. -/
structure PartsKeep (S : Store → Prop) (P : Point) : Prop where
  /-- The parts in the scope of the point keep it. -/
  part {d : Nat} {node : Node} {st : Store} : P.Part ⟨d, P.scope, node, st⟩ → S st →
    (node.eval d P.scope).Ensures st (fun _ => S) S
  /-- It is kept where no scope is changed. -/
  grow {st st' : Store} : S st → st.Extends st' → S st'
  /-- It is kept by the `let` that stands there. -/
  letBind {name : String} {e : Expr} {v : Value} {st : Store} :
    P.node = .stmt (.letBind name e) → e.eval P.depth P.scope P.store = .ok v st → S st →
      S (st.bind P.scope name v)

section

variable {S : Store → Prop} {d : Nat} {s : ScopeId} {st : Store}

/-- A list of statements keeps what its parts keep. -/
lemma stmts_keep {before : Value} {ss : List Stmt} (hst : S st)
    (h : PartsKeep S ⟨d, s, .stmts before ss, st⟩) :
    (evalStmts (evalBlock d) s before ss).Ensures st (fun _ => S) S := by
  cases ss with
  | nil =>
    rw [evalStmts]
    exact .pure hst
  | cons stmt ss =>
    rw [evalStmts]
    refine .andThen (Run.Ensures.with_eq (h.part (.inr .first) hst)) ?_
    rintro v st₁ ⟨heq, hst₁⟩
    by_cases hreturned : v.isReturned = true
    · rw [if_pos hreturned]
      exact .pure hst₁
    · rw [if_neg hreturned]
      exact h.part (.inr (.next heq (by simpa using hreturned))) hst₁

/-- A list of expressions keeps what its parts keep. -/
lemma exprs_keep {es : List Expr} (hst : S st) (h : PartsKeep S ⟨d, s, .exprs es, st⟩) :
    (evalExprs (evalBlock d) s es).Ensures st (fun _ => S) S := by
  cases es with
  | nil =>
    rw [evalExprs]
    exact .pure hst
  | cons e es =>
    rw [evalExprs]
    refine .andThen (Run.Ensures.with_eq (h.part (.inl .item) hst)) ?_
    rintro v st₁ ⟨heq, hst₁⟩
    refine .andThen (h.part (.inr (.restExprs heq)) hst₁) ?_
    exact fun vs st₂ hst₂ => .pure hst₂

/-- Entries keep what their parts keep. -/
lemma entries_keep {before : List (Key × Value)} {rest : List (Expr × Expr)} (hst : S st)
    (h : PartsKeep S ⟨d, s, .entries before rest, st⟩) :
    (evalEntries (evalBlock d) s before rest).Ensures st (fun _ => S) S := by
  cases rest with
  | nil =>
    rw [evalEntries]
    exact .pure hst
  | cons pair rest =>
    obtain ⟨k, e⟩ := pair
    rw [evalEntries]
    refine .andThen (Run.Ensures.with_eq (h.part (.inl .key) hst)) ?_
    rintro v st₁ ⟨hk, hst₁⟩
    split
    · exact hst₁
    · rename_i key hkey
      refine .andThen (Run.Ensures.with_eq (h.part (.inl (.value hk hkey)) hst₁)) ?_
      rintro w st₂ ⟨he, hst₂⟩
      exact h.part (.inr (.restEntries hk hkey he)) hst₂

/-- What a quotation hands over keeps what its parts keep. -/
lemma splices_keep {hs : List Expr} (hst : S st) (h : PartsKeep S ⟨d, s, .splices hs, st⟩) :
    (hs.mapM (spliceWith (evalBlock d) s)).Ensures st (fun _ => S) S := by
  cases hs with
  | nil =>
    rw [List.mapM_nil]
    exact .pure hst
  | cons e hs =>
    have hsplice : (spliceWith (evalBlock d) s e).Ensures st (fun _ => S) S := by
      unfold spliceWith
      split
      · exact .pure hst
      · rename_i arg harg
        cases d with
        | zero => trivial
        | succ d =>
          refine .bind ?_
          rw [evalBlock, evalStmts_expr]
          refine Run.Ensures.imp (h.part (.inl (.unquoted harg)) hst) ?_
          exact fun v st₁ hst₁ => (still_toSyntax v).ensures (fun _ _ => hst₁) hst₁
    rw [List.mapM_cons]
    refine .andThen hsplice.with_eq ?_
    rintro a st₁ ⟨heq, hst₁⟩
    refine .andThen (h.part (.inr (.restSplices heq)) hst₁) ?_
    exact fun as st₂ hst₂ => .pure hst₂

/-- A statement keeps what its part keeps. -/
lemma stmt_keeps {stmt : Stmt} (hst : S st) (h : PartsKeep S ⟨d, s, .stmt stmt, st⟩) :
    (stmt.evalWith (evalBlock d) s).Ensures st (fun _ => S) S := by
  cases stmt with
  | letBind name e =>
    rw [Stmt.evalWith]
    refine .andThen (Run.Ensures.with_eq (h.part (.inl .letBind) hst)) ?_
    rintro v st₁ ⟨heq, hst₁⟩
    exact .bind (h.letBind rfl heq hst₁)
  | ret value =>
    cases value with
    | none =>
      rw [Stmt.evalWith]
      exact .pure hst
    | some e =>
      rw [Stmt.evalWith]
      refine .andThen (h.part (.inl .ret) hst) ?_
      exact fun v st₁ hst₁ => .pure hst₁
  | expr e =>
    rw [Stmt.evalWith]
    exact h.part (.inr .expr) hst

/-- An expression keeps what its parts keep. Of a call, neither the body nor what a built-in
function does is a part in the scope, but no scope is changed there. -/
lemma expr_keeps {e : Expr} (hst : S st) (h : PartsKeep S ⟨d, s, .expr e, st⟩) :
    (e.evalWith (evalBlock d) s).Ensures st (fun _ => S) S := by
  have still {x : Run Fault Value} {st : Store} (hst : S st) (hx : x.Still) :
      x.Ensures st (fun _ => S) S := hx.ensures (fun _ _ => hst) hst
  cases e with
  | ident name =>
    rw [Expr.evalWith]
    exact still hst (still_nameValue s name)
  | int | bool | str =>
    rw [Expr.evalWith]
    exact .pure hst
  | unary op e =>
    rw [Expr.evalWith]
    refine .andThen (h.part (.inl .unary) hst) ?_
    exact fun v st₁ hst₁ => still hst₁ (op.still_apply v)
  | binary op l r =>
    rw [Expr.evalWith]
    refine .andThen (Run.Ensures.with_eq (h.part (.inl .left) hst)) ?_
    rintro v st₁ ⟨hl, hst₁⟩
    refine .andThen (h.part (.inl (.right hl)) hst₁) ?_
    exact fun w st₂ hst₂ => still hst₂ (op.still_apply v w)
  | cond c yes no =>
    cases no with
    | none =>
      rw [Expr.evalWith]
      refine .andThen (Run.Ensures.with_eq (h.part (.inl .test) hst)) ?_
      rintro t st₁ ⟨hc, hst₁⟩
      split
      · rename_i ht
        exact h.part (.inr (.yes hc ht)) hst₁
      · exact .pure hst₁
    | some no =>
      rw [Expr.evalWith]
      refine .andThen (Run.Ensures.with_eq (h.part (.inl .test) hst)) ?_
      rintro t st₁ ⟨hc, hst₁⟩
      split
      · rename_i ht
        exact h.part (.inr (.yes hc ht)) hst₁
      · rename_i ht
        exact h.part (.inr (.no hc (by simpa using ht))) hst₁
  | fnLit params body | macroLit params body =>
    rw [Expr.evalWith]
    exact .bind (h.grow hst ⟨Nat.le_refl _, fun _ _ => rfl⟩)
  | call f args =>
    rw [Expr.evalWith]
    split
    · rename_i hquote
      unfold quoteCallWith
      split
      · rw [quoteWith, Expr.replaceM_eq, bind_assoc]
        refine .andThen (h.part (.inr (.quoted hquote)) hst) ?_
        exact fun as st₁ hst₁ => .pure hst₁
      · exact hst
    · -- The body of the function is no part in the scope, but `applyWith_extends` speaks for it.
      rename_i hquote
      have hquote : f.isQuoteName = false := by simpa using hquote
      refine .andThen (Run.Ensures.with_eq (h.part (.inl (.callee hquote)) hst)) ?_
      rintro v st₁ ⟨hf, hst₁⟩
      refine .andThen (h.part (.inr (.args hquote hf)) hst₁) ?_
      intro vs st₂ hst₂
      exact (applyWith_extends d v vs st₂).mono (fun _ _ => h.grow hst₂) fun _ =>
        h.grow hst₂
  | array items =>
    rw [Expr.evalWith]
    refine .andThen (h.part (.inr .items) hst) ?_
    exact fun vs st₁ hst₁ => .pure hst₁
  | hash pairs =>
    rw [Expr.evalWith]
    refine .andThen (h.part (.inr .pairs) hst) ?_
    exact fun entries st₁ hst₁ => .pure hst₁
  | index b p =>
    rw [Expr.evalWith]
    refine .andThen (Run.Ensures.with_eq (h.part (.inl .base) hst)) ?_
    rintro v st₁ ⟨hb, hst₁⟩
    refine .andThen (h.part (.inl (.position hb)) hst₁) ?_
    exact fun w st₂ hst₂ => still hst₂ (still_indexInto v w)

/-- **What all parts of an evaluation keep is kept by the whole.** -/
theorem ensures_of_parts {P : Point} (hst : S P.store) (h : PartsKeep S P) :
    (P.node.eval P.depth P.scope).Ensures P.store (fun _ => S) S := by
  obtain ⟨d, s, node, st⟩ := P
  cases node with
  | expr e => exact expr_keeps hst h
  | stmt stmt => exact stmt_keeps hst h
  | stmts before ss => exact stmts_keep hst h
  | exprs es => exact exprs_keep hst h
  | entries before rest => exact entries_keep hst h
  | splices hs => exact splices_keep hst h

end

end Point

/-! ## What is written in a scope -/

/-- A scope binds every name to what it did before, or to what one of some `let`s has bound it
to. -/
structure Store.WrittenBy (lets : String → Value → Prop) (scope : ScopeId) (st st' : Store) :
    Prop where
  /-- No scope is lost. -/
  size_le : st.scopes.size ≤ st'.scopes.size
  /-- What the scope binds a name to is as it was, or a `let` has bound it. -/
  bound : ∀ name, st'.bound scope name = st.bound scope name ∨
    ∃ v, lets name v ∧ st'.bound scope name = some v

namespace Store.WrittenBy

variable {lets : String → Value → Prop} {scope : ScopeId}

/-- Nothing needs to be written. -/
lemma refl (st : Store) : WrittenBy lets scope st st :=
  ⟨Nat.le_refl _, fun _ => .inl rfl⟩

/-- What is written by `let`s and by more of them is written by all of them. -/
lemma trans {more : String → Value → Prop} {a b c : Store} (hab : WrittenBy lets scope a b)
    (hbc : WrittenBy more scope b c) (hmore : ∀ name v, more name v → lets name v) :
    WrittenBy lets scope a c := by
  refine ⟨Nat.le_trans hab.size_le hbc.size_le, fun name => ?_⟩
  rcases hbc.bound name with heq | ⟨v, hv, heq⟩
  · rw [heq]
    exact hab.bound name
  · exact .inr ⟨v, hmore name v hv, heq⟩

/-- Where no scope is changed, nothing is written. -/
lemma grow {a b c : Store} (hab : WrittenBy lets scope a b) (hscope : scope < a.scopes.size)
    (hbc : b.Extends c) : WrittenBy lets scope a c := by
  refine ⟨Nat.le_trans hab.size_le hbc.size_le, fun name => ?_⟩
  have hbound : c.bound scope name = b.bound scope name := by
    rw [Store.bound, Store.bound, hbc.scopes_eq scope (Nat.lt_of_lt_of_le hscope hab.size_le)]
  rw [hbound]
  exact hab.bound name

/-- A `let` writes what it binds. -/
lemma bind {a b : Store} (hab : WrittenBy lets scope a b) (hscope : scope < a.scopes.size)
    {name : String} {v : Value} (hv : lets name v) :
    WrittenBy lets scope a (b.bind scope name v) := by
  have hsize : (b.bind scope name v).scopes.size = b.scopes.size := by simp [Store.bind]
  refine ⟨by rw [hsize]; exact hab.size_le, fun other => ?_⟩
  by_cases hother : other = name
  · subst hother
    exact .inr ⟨v, hv, Store.bound_bind_self (Nat.lt_of_lt_of_le hscope hab.size_le) other v⟩
  · rw [Store.bound_bind_of_ne b scope hother v]
    exact hab.bound other

end Store.WrittenBy

namespace Point

/-- The points that are reached from a point without leaving its scope. -/
def InScope : Point → Point → Prop :=
  Relation.ReflTransGen fun P Q => P.Part Q ∧ Q.scope = P.scope

/-- The `let`s that are evaluated directly in the scope of a point: the name and the value that each
of them binds. -/
def Lets (P : Point) (name : String) (v : Value) : Prop :=
  ∃ Q e st', P.InScope Q ∧ Q.node = .stmt (.letBind name e) ∧
    e.eval Q.depth Q.scope Q.store = .ok v st'

/-- The `let`s in a part are `let`s in the whole. -/
lemma Lets.of_part {P Q : Point} (hpart : P.Part Q) (hscope : Q.scope = P.scope) {name : String}
    {v : Value} (h : Q.Lets name v) : P.Lets name v := by
  obtain ⟨R, e, st', hreach, hnode, he⟩ := h
  exact ⟨R, e, st', .head ⟨hpart, hscope⟩ hreach, hnode, he⟩

/-- **Only `let`s write in a scope**, and only those that are evaluated directly in it.

**Proof sketch.** Induction over points. A part in the scope writes by its own `let`s, which are
`let`s of the whole; the bodies of functions are evaluated in scopes that are new. -/
theorem ensures_writtenBy (P : Point) (hscope : P.scope < P.store.scopes.size) :
    (P.node.eval P.depth P.scope).Ensures P.store
      (fun _ => Store.WrittenBy P.Lets P.scope P.store)
      (Store.WrittenBy P.Lets P.scope P.store) := by
  induction P using Point.induction with
  | h P ih =>
    refine ensures_of_parts (.refl _) {
      part := fun {d node st} hpart hst => ?_
      grow := fun hst hext => hst.grow hscope hext
      letBind := fun hnode he hst => hst.bind hscope ⟨P, _, _, .refl, hnode, he⟩ }
    have hnode := ih _ hpart (Nat.lt_of_lt_of_le hscope hst.size_le)
    have hlets (name : String) (v : Value) : Lets ⟨d, P.scope, node, st⟩ name v → P.Lets name v :=
      Lets.of_part hpart rfl
    exact hnode.mono (fun _ _ h => hst.trans h hlets) fun _ h => hst.trans h hlets

/-- What an evaluation that began at a point does to the scopes that were there before. -/
structure Writes (P : Point) (st' : Store) : Prop where
  /-- It changes no scope but its own, which keeps its outer scope and its names. -/
  framed : Store.Framed P.scope P.store st'
  /-- What its own scope binds a name to is as it was, or was bound by a `let` that was evaluated
  directly in the scope. -/
  bound : ∀ name, st'.bound P.scope name = P.store.bound P.scope name ∨
    ∃ v, P.Lets name v ∧ st'.bound P.scope name = some v

end Point

/-! ## Trees -/

/-- The node that is evaluated for a part of a program. -/
def Tree.node : Tree → Node
  | program p => .stmts .null p
  | block b => .stmts .null b
  | stmt s => .stmt s
  | expr e => .expr e

/-- The value of a part of a program is that of its node, unwrapped at the end of a program. What
holds of all stores after the node holds after the part. -/
lemma Tree.eval_ensures {S : Store → Prop} (t : Tree) {depth : Nat} {scope : ScopeId} {st : Store}
    (h : (t.node.eval depth scope).Ensures st (fun _ => S) S) :
    (t.eval depth scope).Ensures st (fun _ => S) S := by
  cases t with
  | program p =>
    exact .andThen h fun v st' hst' => (Still.settle _).ensures (fun _ _ => hst') hst'
  | block | stmt | expr => exact h

/-- Evaluation changes no scope but its own. -/
lemma Tree.node_framed (t : Tree) (depth : Nat) (scope : ScopeId) (st : Store) :
    (t.node.eval depth scope).Ensures st (fun _ => Store.Framed scope st)
      (Store.Framed scope st) := by
  cases t with
  | program ss | block ss => exact evalBlock_keeps Store.Framed.kept (depth + 1) ss scope st
  | stmt s => exact Stmt.eval_keeps Store.Framed.kept depth s scope st
  | expr e => exact Expr.eval_keeps Store.Framed.kept depth e scope st

/-- **What evaluation writes**: the evaluation of a part of a program in a scope changes no other
scope that was there before. Its own scope keeps its outer scope and its names, and what it binds
otherwise than before was bound by a `let` that was evaluated directly in it. A call changes no
scope that was there before. -/
theorem eval_apply_writes (depth : Nat) (st st' : Store) (v : Value) :
    (∀ (t : Tree) (scope : ScopeId), scope < st.scopes.size →
      (t.eval depth scope st).value? = some (v, st') →
        Point.Writes ⟨depth, scope, t.node, st⟩ st') ∧
    ∀ (callee : Value) (args : List Value),
      (callee.apply depth args st).value? = some (v, st') → st.Extends st' := by
  constructor
  · intro t scope hscope heval
    have hframed := (t.eval_ensures (t.node_framed depth scope st)).of_value? heval
    have hwritten := (t.eval_ensures
      (Point.ensures_writtenBy ⟨depth, scope, t.node, st⟩ hscope)).of_value? heval
    refine ⟨?_, ?_⟩
    · exact hframed.elim id And.right
    · exact (hwritten.elim id And.right).bound
  · intro callee args happly
    exact ((applyWith_extends depth callee args st).of_value? happly).elim id And.right

/-- A function that binds a name in the scope of its body. -/
def bindInBody : Value :=
  .function ⟨0, ["a"], [.letBind "b" (.ident "a")], 0⟩

/-- A choice that binds the value of a call in the scope around it. -/
def bindInChoice : Tree :=
  .expr (.cond (.bool true) [.letBind "x" (.call (.ident "f") [.int 5])] none)

/-- What a call binds stays in the scope of the body, and what a choice binds is found around it. -/
theorem eval_apply_writes_choice :
    let st := Store.empty.newGlobal.2.bind 0 "f" bindInBody
    ∃ st₁ st₂, 0 < st.scopes.size ∧
      (bindInChoice.eval 2 0 st).value? = some (.int 5, st₁) ∧
      Point.Writes ⟨2, 0, bindInChoice.node, st⟩ st₁ ∧
      (bindInBody.apply 2 [.int 5] st).value? = some (.int 5, st₂) ∧ st.Extends st₂ := by
  intro st
  have hscope : 0 < st.scopes.size := by decide
  obtain ⟨st₁, heval⟩ : ∃ st₁, (bindInChoice.eval 2 0 st).value? = some (.int 5, st₁) :=
    ⟨_, by with_unfolding_all rfl⟩
  obtain ⟨st₂, happly⟩ : ∃ st₂, (bindInBody.apply 2 [.int 5] st).value? = some (.int 5, st₂) :=
    ⟨_, by with_unfolding_all rfl⟩
  exact ⟨st₁, st₂, hscope, heval, (eval_apply_writes 2 st st₁ _).1 _ 0 hscope heval, happly,
    (eval_apply_writes 2 st st₂ _).2 _ _ happly⟩

end QuoteLang
