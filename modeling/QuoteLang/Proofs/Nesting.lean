import QuoteLang.Proofs.Exhaustion

set_option relaxedAutoImplicit false
set_option autoImplicit false

/-!
# Evaluation without function literals

Where no function literals are, neither in the syntax nor in what is bound, no function is ever
made, and so none is called. What is left to take depth are the arguments of `unquote`. These are
nested in one another no more deeply than the syntax is large, because what is spliced into a
quotation is not evaluated. So a depth of the size of the syntax is enough.

## Main definitions

* `Node.Within`, `Point.Within` — an evaluation in which all syntax is made of a vocabulary.
* `Node.Below` — the trees of a node are no larger than some number.

## Main results

* `Point.Reaches.within` — all that an evaluation reaches is made of the vocabulary.
* `Point.ne_tooDeep` — without function literals an evaluation is not too deep, if the depth is not
  less than the size of its trees.
-/

namespace QuoteLang

open Run

/-! ## Points within a vocabulary -/

/-- The syntax of a node is within a vocabulary, and so is all that it begins with. -/
def Node.Within (V : Vocabulary) : Node → Prop
  | expr e => e.within V
  | stmt s => s.within V
  | stmts before ss => before.Within V ∧ stmtsWithin V ss
  | exprs es => exprsWithin V es
  | entries before rest => (∀ e ∈ before, e.2.Within V) ∧ entriesWithin V rest
  | splices hs => ∀ h ∈ hs, h.within V

namespace Point

/-- All syntax is within a vocabulary where an evaluation begins. -/
structure Within (V : Vocabulary) (P : Point) : Prop where
  /-- That of the node is. -/
  node : P.node.Within V
  /-- That of all that is bound is. -/
  store : P.store.All (Value.Within V)

section

variable {V : Vocabulary} (hV : ∀ name, V.names name) {P Q : Point}

include hV

/-- The value of an expression within the vocabulary is within it, and so is what is bound then. -/
lemma within_of_eval {d : Nat} {s : ScopeId} {st st' : Store} {e : Expr} {v : Value}
    (he : e.within V) (hst : st.All (Value.Within V)) (h : e.eval d s st = .ok v st') :
    v.Within V ∧ st'.All (Value.Within V) :=
  ((Expr.eval_blind d he trivial).ensures hV hst).of_ok h

/-- An operand is within the vocabulary. -/
lemma Operand.within (h : P.Operand Q) (hP : P.Within V) : Q.Within V := by
  obtain ⟨hn, hst⟩ := hP
  cases h with
  | unary =>
    simp only [Node.Within, Expr.within] at hn
    exact ⟨hn, hst⟩
  | left | callee | base =>
    simp only [Node.Within, Expr.within, Bool.and_eq_true] at hn
    exact ⟨hn.1, hst⟩
  | test =>
    rename_i no _
    cases no <;>
    · simp only [Node.Within, Expr.within, Bool.and_eq_true] at hn
      exact ⟨hn.1, hst⟩
  | right hl =>
    simp only [Node.Within, Expr.within, Bool.and_eq_true] at hn
    exact ⟨hn.2, (within_of_eval hV hn.1 hst hl).2⟩
  | position hb =>
    simp only [Node.Within, Expr.within, Bool.and_eq_true] at hn
    exact ⟨hn.2, (within_of_eval hV hn.1 hst hb).2⟩
  | letBind =>
    simp only [Node.Within, Stmt.within, Bool.and_eq_true] at hn
    exact ⟨hn.2, hst⟩
  | ret =>
    simp only [Node.Within, Stmt.within] at hn
    exact ⟨hn, hst⟩
  | item =>
    simp only [Node.Within, exprsWithin, Bool.and_eq_true] at hn
    exact ⟨hn.1, hst⟩
  | key =>
    simp only [Node.Within, entriesWithin, Bool.and_eq_true] at hn
    exact ⟨hn.2.1, hst⟩
  | value hk hkey =>
    simp only [Node.Within, entriesWithin, Bool.and_eq_true] at hn
    exact ⟨hn.2.2.1, (within_of_eval hV hn.2.1 hst hk).2⟩
  | unquoted harg => exact ⟨Expr.within_unquoted (hn _ List.mem_cons_self) harg, hst⟩

/-- Another part is within the vocabulary. -/
lemma Inner.within (h : P.Inner Q) (hP : P.Within V) : Q.Within V := by
  obtain ⟨hn, hst⟩ := hP
  cases h with
  | yes hc ht =>
    rename_i no _ _ _
    cases no <;>
    · simp only [Node.Within, Expr.within, Bool.and_eq_true] at hn
      refine ⟨⟨Value.clean_null, ?_⟩, (within_of_eval hV hn.1 hst hc).2⟩
      first | exact hn.2 | exact hn.2.1
  | no hc ht =>
    simp only [Node.Within, Expr.within, Bool.and_eq_true] at hn
    exact ⟨⟨Value.clean_null, hn.2.2⟩, (within_of_eval hV hn.1 hst hc).2⟩
  | quoted hf =>
    simp only [Node.Within, Expr.within, Bool.and_eq_true, exprsWithin] at hn
    exact ⟨(Expr.staysWithin hn.2.1).handedOver, hst⟩
  | args hquote hf =>
    simp only [Node.Within, Expr.within, Bool.and_eq_true] at hn
    exact ⟨hn.2, (within_of_eval hV hn.1 hst hf).2⟩
  | @body d s _ _ _ _ _ _ _ hquote hf hargs hlen =>
    simp only [Node.Within, Expr.within, Bool.and_eq_true, exprsWithin_iff] at hn
    obtain ⟨hc, hst₁⟩ := within_of_eval hV hn.1 hst hf
    have hexprs := (evalExprs_blind fun e he =>
      Expr.eval_blind (i := s) (d + 1) (hn.2 e he) trivial).ensures hV hst₁
    obtain ⟨hvs, hst₂⟩ := hexprs.of_ok hargs
    have hbody := (Value.clean_function_iff.mp hc).2.1
    rw [Closure.within, Bool.and_eq_true] at hbody
    exact ⟨⟨Value.clean_null, hbody.2⟩, hst₂.call hvs⟩
  | items =>
    simp only [Node.Within, Expr.within] at hn
    exact ⟨hn, hst⟩
  | pairs =>
    simp only [Node.Within, Expr.within] at hn
    exact ⟨⟨List.forall_mem_nil _, hn⟩, hst⟩
  | expr =>
    simp only [Node.Within, Stmt.within] at hn
    exact ⟨hn, hst⟩
  | first =>
    simp only [Node.Within, stmtsWithin, Bool.and_eq_true] at hn
    exact ⟨hn.2.1, hst⟩
  | next hs hv =>
    simp only [Node.Within, stmtsWithin, Bool.and_eq_true] at hn
    obtain ⟨hv, hst₁⟩ := ((Stmt.eval_blind _ hn.2.1 trivial).ensures hV hst).of_ok hs
    exact ⟨⟨hv, hn.2.2⟩, hst₁⟩
  | restExprs he =>
    simp only [Node.Within, exprsWithin, Bool.and_eq_true] at hn
    exact ⟨hn.2, (within_of_eval hV hn.1 hst he).2⟩
  | restEntries hk hkey he =>
    simp only [Node.Within, entriesWithin, Bool.and_eq_true] at hn
    have hst₁ := (within_of_eval hV hn.2.1 hst hk).2
    obtain ⟨hw, hst₂⟩ := within_of_eval hV hn.2.2.1 hst₁ he
    refine ⟨⟨fun p hp => ?_, hn.2.2.2⟩, hst₂⟩
    rcases Assoc.mem_put hp with hp | rfl
    · exact hn.1 p hp
    · exact hw
  | @restSplices d s _ _ _ _ _ hh =>
    have hsplice := (spliceWith_blind (i := s) (evalBlock_blind d) trivial
      (hn _ List.mem_cons_self)).ensures hV hst
    exact ⟨fun h hmem => hn h (List.mem_cons_of_mem _ hmem), (hsplice.of_ok hh).2⟩

/-- A part is within the vocabulary. -/
lemma Part.within (h : P.Part Q) (hP : P.Within V) : Q.Within V :=
  h.elim (fun h => h.within hV hP) fun h => h.within hV hP

/-- **All that an evaluation reaches is within the vocabulary**, if it begins within it. -/
theorem Reaches.within (h : P.Reaches Q) (hP : P.Within V) : Q.Within V := by
  induction h with
  | refl => exact hP
  | tail _ hpart ih => exact Part.within hV hpart ih

end

end Point

/-! ## Sizes -/

/-- What is found in what the members of a list are made into is no larger than the list, if it is
no larger than the member it comes from. -/
lemma sizeOf_of_mem_flatMap {α : Type} [SizeOf α] {f : α → List Expr} {l : List α}
    (h : ∀ a ∈ l, ∀ x ∈ f a, sizeOf x ≤ sizeOf a) : ∀ x ∈ l.flatMap f, sizeOf x ≤ sizeOf l := by
  intro x hx
  obtain ⟨a, ha, hx⟩ := List.mem_flatMap.mp hx
  exact Nat.le_trans (h a ha x hx) (Nat.le_of_lt (List.sizeOf_lt_of_mem ha))

/-- What statements hand over is no larger than they are, if that holds of each of them. -/
lemma sizeOf_handedOverStmts {ss : List Stmt}
    (h : ∀ s ∈ ss, ∀ x ∈ s.handedOver, sizeOf x ≤ sizeOf s) :
    ∀ x ∈ handedOverStmts ss, sizeOf x ≤ sizeOf ss := by
  rw [handedOverStmts_eq]
  exact sizeOf_of_mem_flatMap h

/-- What the expressions of a list hand over is no larger than they are, if that holds of each. -/
lemma sizeOf_handedOverExprs {es : List Expr}
    (h : ∀ e ∈ es, ∀ x ∈ e.handedOver, sizeOf x ≤ sizeOf e) :
    ∀ x ∈ handedOverExprs es, sizeOf x ≤ sizeOf es := by
  rw [handedOverExprs_eq]
  exact sizeOf_of_mem_flatMap h

/-- What entries hand over is no larger than they are, if that holds of each key and each value. -/
lemma sizeOf_handedOverEntries {entries : List (Expr × Expr)}
    (h : ∀ e ∈ entries, (∀ x ∈ e.1.handedOver, sizeOf x ≤ sizeOf e.1) ∧
      ∀ x ∈ e.2.handedOver, sizeOf x ≤ sizeOf e.2) :
    ∀ x ∈ handedOverEntries entries, sizeOf x ≤ sizeOf entries := by
  rw [handedOverEntries_eq]
  refine sizeOf_of_mem_flatMap fun ⟨k, v⟩ he x hx => ?_
  have hle := (List.mem_append.mp hx).imp ((h _ he).1 x) ((h _ he).2 x)
  rw [Prod.mk.sizeOf_spec]
  simp only at hle
  omega

/-- **What is handed over is no larger** than the expression or the statement that it is a part
of. -/
theorem sizeOf_handedOver :
    (∀ e : Expr, ∀ x ∈ e.handedOver, sizeOf x ≤ sizeOf e) ∧
      ∀ s : Stmt, ∀ x ∈ s.handedOver, sizeOf x ≤ sizeOf s := by
  apply Expr.induction
  case ident | int | bool | str =>
    intro a x hx
    rw [Expr.handedOver, List.mem_singleton] at hx
    exact Nat.le_of_eq (congrArg sizeOf hx)
  case call =>
    intro f args _ _ x hx
    rw [Expr.handedOver, List.mem_singleton] at hx
    exact Nat.le_of_eq (congrArg sizeOf hx)
  case macroLit =>
    intro params body _ x hx
    rw [Expr.handedOver, List.mem_singleton] at hx
    exact Nat.le_of_eq (congrArg sizeOf hx)
  case unary =>
    intro op e ih x hx
    rw [Expr.handedOver] at hx
    have hle := ih x hx
    rw [Expr.unary.sizeOf_spec]
    omega
  case binary =>
    intro op l r ihl ihr x hx
    rw [Expr.handedOver, List.mem_append] at hx
    have hle := hx.imp (ihl x) (ihr x)
    rw [Expr.binary.sizeOf_spec]
    omega
  case cond =>
    intro c yes no ihc ihyes ihno x hx
    rw [Expr.cond.sizeOf_spec]
    cases no with
    | none =>
      rw [Expr.handedOver, List.mem_append] at hx
      have hle := hx.imp (ihc x) (sizeOf_handedOverStmts ihyes x)
      omega
    | some no =>
      rw [Expr.handedOver, List.mem_append, List.mem_append] at hx
      have hle := hx.imp (ihc x) fun hx =>
        hx.imp (sizeOf_handedOverStmts ihyes x) (sizeOf_handedOverStmts (ihno no rfl) x)
      rw [Option.some.sizeOf_spec]
      omega
  case fnLit =>
    intro params body ih x hx
    rw [Expr.handedOver] at hx
    have hle := sizeOf_handedOverStmts ih x hx
    rw [Expr.fnLit.sizeOf_spec]
    omega
  case array =>
    intro items ih x hx
    rw [Expr.handedOver] at hx
    have hle := sizeOf_handedOverExprs ih x hx
    rw [Expr.array.sizeOf_spec]
    omega
  case hash =>
    intro entries ih x hx
    rw [Expr.handedOver] at hx
    have hle := sizeOf_handedOverEntries ih x hx
    rw [Expr.hash.sizeOf_spec]
    omega
  case index =>
    intro b p ihb ihp x hx
    rw [Expr.handedOver, List.mem_append] at hx
    have hle := hx.imp (ihb x) (ihp x)
    rw [Expr.index.sizeOf_spec]
    omega
  case letBind =>
    intro name e ih x hx
    rw [Stmt.handedOver] at hx
    have hle := ih x hx
    rw [Stmt.letBind.sizeOf_spec]
    omega
  case ret =>
    intro value ih x hx
    cases value with
    | none => cases hx
    | some e =>
      rw [Stmt.handedOver] at hx
      have hle := ih e rfl x hx
      rw [Stmt.ret.sizeOf_spec, Option.some.sizeOf_spec]
      omega
  case expr =>
    intro e ih x hx
    rw [Stmt.handedOver] at hx
    have hle := ih x hx
    rw [Stmt.expr.sizeOf_spec]
    omega

/-- The argument of an `unquote` is smaller than its call. -/
lemma Expr.sizeOf_unquoted {e arg : Expr} (h : e.unquoted? = some arg) :
    sizeOf arg < sizeOf e := by
  unfold Expr.unquoted? at h
  split at h
  · split at h
    · cases h
      simp only [Expr.call.sizeOf_spec, List.cons.sizeOf_spec]
      omega
    · cases h
  · cases h

/-- The trees of a node are no larger than some number. -/
def Node.Below (n : Nat) : Node → Prop
  | expr e => sizeOf e ≤ n
  | stmt s => sizeOf s ≤ n
  | stmts _ ss => sizeOf ss ≤ n
  | exprs es => sizeOf es ≤ n
  | entries _ rest => sizeOf rest ≤ n
  | splices hs => ∀ h ∈ hs, sizeOf h ≤ n

namespace Point

variable {P Q : Point}

/-- The trees of an operand are no larger than the depth, if those of the point are. -/
lemma Operand.below (h : P.Operand Q) (hP : P.node.Below P.depth) : Q.node.Below Q.depth := by
  cases h with
  | @unquoted d _ e _ _ _ harg =>
    have hle : sizeOf e ≤ d + 1 := hP _ List.mem_cons_self
    exact Nat.le_of_lt_succ (Nat.lt_of_lt_of_le (Expr.sizeOf_unquoted harg) hle)
  | _ =>
    simp only [Node.Below, Expr.unary.sizeOf_spec, Expr.binary.sizeOf_spec, Expr.cond.sizeOf_spec,
      Expr.call.sizeOf_spec, Expr.index.sizeOf_spec, Stmt.letBind.sizeOf_spec,
      Stmt.ret.sizeOf_spec, Option.some.sizeOf_spec, List.cons.sizeOf_spec,
      Prod.mk.sizeOf_spec] at hP ⊢
    omega

/-- The trees of another part are no larger than the depth, if those of the point are, and no
function literals are there. -/
lemma Inner.below (h : P.Inner Q) (hwithin : P.Within .noFunctions)
    (hP : P.node.Below P.depth) : Q.node.Below Q.depth := by
  cases h with
  | quoted hf =>
    intro x hx
    have hle := sizeOf_handedOver.1 _ x hx
    simp only [Node.Below, Expr.call.sizeOf_spec, List.cons.sizeOf_spec] at hP ⊢
    omega
  | body hquote hf hargs hlen =>
    have hn := hwithin.node
    simp only [Node.Within, Expr.within, Bool.and_eq_true] at hn
    have hc := (within_of_eval (fun _ => rfl) hn.1 hwithin.store hf).1
    cases (Value.clean_function_iff.mp hc).1
  | restSplices hh => exact fun x hx => hP x (List.mem_cons_of_mem _ hx)
  | _ =>
    simp only [Node.Below, Expr.cond.sizeOf_spec, Expr.call.sizeOf_spec, Expr.array.sizeOf_spec,
      Expr.hash.sizeOf_spec, Stmt.expr.sizeOf_spec, Option.some.sizeOf_spec,
      List.cons.sizeOf_spec, Prod.mk.sizeOf_spec] at hP ⊢
    omega

/-- All that is reached is made of no function literals, and is no larger than the depth that is
left. -/
lemma Reaches.below (h : P.Reaches Q) (hwithin : P.Within .noFunctions)
    (hP : P.node.Below P.depth) : Q.Within .noFunctions ∧ Q.node.Below Q.depth := by
  induction h with
  | refl => exact ⟨hwithin, hP⟩
  | tail _ hpart ih =>
    refine ⟨Part.within (fun _ => rfl) hpart ih.1, ?_⟩
    exact hpart.elim (fun h => h.below ih.2) fun h => h.below ih.1 ih.2

/-- **Without function literals an evaluation is not too deep**, if the depth is not less than the
size of its trees.

**Proof sketch.** What is too deep reaches a point where the depth is used up. No function is called
there, because none has been made; and the argument of an `unquote` is there to be evaluated only
where some depth is left. -/
theorem ne_tooDeep (hwithin : P.Within .noFunctions) (hP : P.node.Below P.depth) :
    P.outcome ≠ .tooDeep := by
  intro h
  obtain ⟨Q, hreach, hQ⟩ := reaches_exhausted h
  obtain ⟨hQwithin, hQbelow⟩ := hreach.below hwithin hP
  cases hQ with
  | body hquote hf hargs hlen =>
    have hn := hQwithin.node
    simp only [Node.Within, Expr.within, Bool.and_eq_true] at hn
    have hc := (within_of_eval (fun _ => rfl) hn.1 hQwithin.store hf).1
    cases (Value.clean_function_iff.mp hc).1
  | unquoted harg =>
    have hle := hQbelow _ List.mem_cons_self
    have hlt := Expr.sizeOf_unquoted harg
    exact absurd hlt (Nat.not_lt_of_le (Nat.le_trans hle (Nat.zero_le _)))

end Point

end QuoteLang
