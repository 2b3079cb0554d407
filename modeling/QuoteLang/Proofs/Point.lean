import Mathlib.Logic.Relation
import QuoteLang.Proofs.Replace
import QuoteLang.Eval

set_option relaxedAutoImplicit false
set_option autoImplicit false

/-!
# Points of an evaluation

An evaluation is at a point when it is about to evaluate something in a scope, with some store. From
a point it goes on to other points: those of the operands, whose values it uses as data, and those
of other parts, whose values become its own or are values of a list. Which parts are met, and with
which store, depends on how the parts before them have ended.

## Main definitions

* `Node` — what can be evaluated: expressions, statements, lists of them, and quotations.
* `Point` — a node with a scope, a store, and the depth that calls may still have.
* `Point.Operand`, `Point.Inner` — the operands of a point and its other parts.
* `Point.Reaches`, `Point.Meets` — the points that are reached, and the operands that are met.

## Main results

* `Point.part_stmt_iff` — the only part of a statement is the expression that it evaluates.
* `Point.induction` — induction over points, with a hypothesis for every part.
-/

namespace QuoteLang

/-! ## Points -/

/-- What can be evaluated. -/
inductive Node
  /-- An expression. -/
  | expr (e : Expr)
  /-- A statement. -/
  | stmt (s : Stmt)
  /-- Statements, after one with a value. -/
  | stmts (before : Value) (ss : List Stmt)
  /-- The expressions of a list. -/
  | exprs (es : List Expr)
  /-- Entries of a hash, after others that have been put in. -/
  | entries (before : List (Key × Value)) (rest : List (Expr × Expr))
  /-- The expressions that a quotation hands over. -/
  | splices (hs : List Expr)

/-- What the evaluation of a node yields. -/
def Node.Result : Node → Type
  | expr _ | stmt _ | stmts _ _ => Value
  | exprs _ => List Value
  | entries _ _ => List (Key × Value)
  | splices _ => List Expr

/-- The evaluation of a node in a scope, where the calls in it may be nested up to a depth. -/
def Node.eval (depth : Nat) (scope : ScopeId) : (n : Node) → Run Fault n.Result
  | expr e => e.evalWith (evalBlock depth) scope
  | stmt s => s.evalWith (evalBlock depth) scope
  | stmts before ss => evalStmts (evalBlock depth) scope before ss
  | exprs es => evalExprs (evalBlock depth) scope es
  | entries before rest => evalEntries (evalBlock depth) scope before rest
  | splices hs => hs.mapM (spliceWith (evalBlock depth) scope)

/-- An evaluation that is about to begin. -/
structure Point where
  /-- How deeply the calls in it may be nested. -/
  depth : Nat
  /-- The scope in which it takes place. -/
  scope : ScopeId
  /-- What is evaluated. -/
  node : Node
  /-- The store it begins with. -/
  store : Store

namespace Point

/-! ## Parts -/

/-- The **operands** of a point: the expressions whose values the evaluation there uses as data. -/
inductive Operand : Point → Point → Prop
  /-- The operand of a sign. -/
  | unary {d : Nat} {s : ScopeId} {op : UnaryOp} {e : Expr} {st : Store} :
      Operand ⟨d, s, .expr (.unary op e), st⟩ ⟨d, s, .expr e, st⟩
  /-- The left operand of an operator. -/
  | left {d : Nat} {s : ScopeId} {op : BinaryOp} {l r : Expr} {st : Store} :
      Operand ⟨d, s, .expr (.binary op l r), st⟩ ⟨d, s, .expr l, st⟩
  /-- The right operand of an operator. -/
  | right {d : Nat} {s : ScopeId} {op : BinaryOp} {l r : Expr} {st st₁ : Store} {v : Value}
      (hl : l.eval d s st = .ok v st₁) :
      Operand ⟨d, s, .expr (.binary op l r), st⟩ ⟨d, s, .expr r, st₁⟩
  /-- The test of a choice. -/
  | test {d : Nat} {s : ScopeId} {c : Expr} {yes : List Stmt} {no : Option (List Stmt)}
      {st : Store} :
      Operand ⟨d, s, .expr (.cond c yes no), st⟩ ⟨d, s, .expr c, st⟩
  /-- The function of a call. -/
  | callee {d : Nat} {s : ScopeId} {f : Expr} {args : List Expr} {st : Store}
      (hf : f.isQuoteName = false) :
      Operand ⟨d, s, .expr (.call f args), st⟩ ⟨d, s, .expr f, st⟩
  /-- The expression that is indexed. -/
  | base {d : Nat} {s : ScopeId} {b p : Expr} {st : Store} :
      Operand ⟨d, s, .expr (.index b p), st⟩ ⟨d, s, .expr b, st⟩
  /-- The index. -/
  | position {d : Nat} {s : ScopeId} {b p : Expr} {st st₁ : Store} {v : Value}
      (hb : b.eval d s st = .ok v st₁) :
      Operand ⟨d, s, .expr (.index b p), st⟩ ⟨d, s, .expr p, st₁⟩
  /-- The value that a name is bound to. -/
  | letBind {d : Nat} {s : ScopeId} {name : String} {e : Expr} {st : Store} :
      Operand ⟨d, s, .stmt (.letBind name e), st⟩ ⟨d, s, .expr e, st⟩
  /-- The value of a `return`. -/
  | ret {d : Nat} {s : ScopeId} {e : Expr} {st : Store} :
      Operand ⟨d, s, .stmt (.ret (some e)), st⟩ ⟨d, s, .expr e, st⟩
  /-- An argument of a call or an item of an array. -/
  | item {d : Nat} {s : ScopeId} {e : Expr} {es : List Expr} {st : Store} :
      Operand ⟨d, s, .exprs (e :: es), st⟩ ⟨d, s, .expr e, st⟩
  /-- A key of a hash. -/
  | key {d : Nat} {s : ScopeId} {before : List (Key × Value)} {k e : Expr}
      {rest : List (Expr × Expr)} {st : Store} :
      Operand ⟨d, s, .entries before ((k, e) :: rest), st⟩ ⟨d, s, .expr k, st⟩
  /-- A value of a hash. -/
  | value {d : Nat} {s : ScopeId} {before : List (Key × Value)} {k e : Expr}
      {rest : List (Expr × Expr)} {st st₁ : Store} {v : Value} {key : Key}
      (hk : k.eval d s st = .ok v st₁) (hkey : v.key? = some key) :
      Operand ⟨d, s, .entries before ((k, e) :: rest), st⟩ ⟨d, s, .expr e, st₁⟩
  /-- The argument of a call of `unquote`. -/
  | unquoted {d : Nat} {s : ScopeId} {h arg : Expr} {hs : List Expr} {st : Store}
      (harg : h.unquoted? = some arg) :
      Operand ⟨d + 1, s, .splices (h :: hs), st⟩ ⟨d, s, .expr arg, st⟩

/-- The parts of a point that are no operands: their values become its own, or are values of a
list. -/
inductive Inner : Point → Point → Prop
  /-- The first block of a choice. -/
  | yes {d : Nat} {s : ScopeId} {c : Expr} {yes : List Stmt} {no : Option (List Stmt)}
      {st st₁ : Store} {t : Value} (hc : c.eval d s st = .ok t st₁) (ht : t.truthy = true) :
      Inner ⟨d, s, .expr (.cond c yes no), st⟩ ⟨d, s, .stmts .null yes, st₁⟩
  /-- The second block of a choice. -/
  | no {d : Nat} {s : ScopeId} {c : Expr} {yes no : List Stmt} {st st₁ : Store} {t : Value}
      (hc : c.eval d s st = .ok t st₁) (ht : t.truthy = false) :
      Inner ⟨d, s, .expr (.cond c yes (some no)), st⟩ ⟨d, s, .stmts .null no, st₁⟩
  /-- What a quotation hands over. -/
  | quoted {d : Nat} {s : ScopeId} {f e : Expr} {st : Store} (hf : f.isQuoteName = true) :
      Inner ⟨d, s, .expr (.call f [e]), st⟩ ⟨d, s, .splices e.handedOver, st⟩
  /-- The arguments of a call. -/
  | args {d : Nat} {s : ScopeId} {f : Expr} {args : List Expr} {st st₁ : Store} {v : Value}
      (hquote : f.isQuoteName = false) (hf : f.eval d s st = .ok v st₁) :
      Inner ⟨d, s, .expr (.call f args), st⟩ ⟨d, s, .exprs args, st₁⟩
  /-- The body of the function that is called. -/
  | body {d : Nat} {s : ScopeId} {f : Expr} {args : List Expr} {st st₁ st₂ : Store} {c : Closure}
      {vs : List Value} (hquote : f.isQuoteName = false)
      (hf : f.eval (d + 1) s st = .ok (.function c) st₁)
      (hargs : evalExprs (evalBlock (d + 1)) s args st₁ = .ok vs st₂)
      (hlen : vs.length = c.params.length) :
      Inner ⟨d + 1, s, .expr (.call f args), st⟩ ⟨d, st₂.scopes.size, .stmts .null c.body,
        (st₂.enclose c.scope).2.bindAll st₂.scopes.size (c.params.zip vs)⟩
  /-- The items of an array. -/
  | items {d : Nat} {s : ScopeId} {items : List Expr} {st : Store} :
      Inner ⟨d, s, .expr (.array items), st⟩ ⟨d, s, .exprs items, st⟩
  /-- The entries of a hash. -/
  | pairs {d : Nat} {s : ScopeId} {pairs : List (Expr × Expr)} {st : Store} :
      Inner ⟨d, s, .expr (.hash pairs), st⟩ ⟨d, s, .entries [] pairs, st⟩
  /-- The expression that stands as a statement. -/
  | expr {d : Nat} {s : ScopeId} {e : Expr} {st : Store} :
      Inner ⟨d, s, .stmt (.expr e), st⟩ ⟨d, s, .expr e, st⟩
  /-- The first of some statements. -/
  | first {d : Nat} {s : ScopeId} {before : Value} {stmt : Stmt} {rest : List Stmt} {st : Store} :
      Inner ⟨d, s, .stmts before (stmt :: rest), st⟩ ⟨d, s, .stmt stmt, st⟩
  /-- The statements after one that does not return. -/
  | next {d : Nat} {s : ScopeId} {before v : Value} {stmt : Stmt} {rest : List Stmt}
      {st st₁ : Store}
      (hs : stmt.eval d s st = .ok v st₁) (hv : v.isReturned = false) :
      Inner ⟨d, s, .stmts before (stmt :: rest), st⟩ ⟨d, s, .stmts v rest, st₁⟩
  /-- The expressions after the first of a list. -/
  | restExprs {d : Nat} {s : ScopeId} {e : Expr} {es : List Expr} {st st₁ : Store} {v : Value}
      (he : e.eval d s st = .ok v st₁) :
      Inner ⟨d, s, .exprs (e :: es), st⟩ ⟨d, s, .exprs es, st₁⟩
  /-- The entries after the first. -/
  | restEntries {d : Nat} {s : ScopeId} {before : List (Key × Value)} {k e : Expr}
      {rest : List (Expr × Expr)} {st st₁ st₂ : Store} {v w : Value} {key : Key}
      (hk : k.eval d s st = .ok v st₁) (hkey : v.key? = some key)
      (he : e.eval d s st₁ = .ok w st₂) :
      Inner ⟨d, s, .entries before ((k, e) :: rest), st⟩
        ⟨d, s, .entries (Assoc.put key w before) rest, st₂⟩
  /-- What a quotation hands over after the first. -/
  | restSplices {d : Nat} {s : ScopeId} {h : Expr} {hs : List Expr} {st st₁ : Store} {a : Expr}
      (hh : spliceWith (evalBlock d) s h st = .ok a st₁) :
      Inner ⟨d, s, .splices (h :: hs), st⟩ ⟨d, s, .splices hs, st₁⟩

/-- The parts of a point. -/
def Part (P Q : Point) : Prop :=
  P.Operand Q ∨ P.Inner Q

/-- **The only part of a statement** is the expression that it evaluates. -/
theorem part_stmt_iff {d : Nat} {s : ScopeId} {stmt : Stmt} {st : Store} {Q : Point} :
    Part ⟨d, s, .stmt stmt, st⟩ Q ↔ ∃ e, stmt.value? = some e ∧ Q = ⟨d, s, .expr e, st⟩ := by
  constructor
  · rintro (hpart | hpart)
    · cases hpart with
      | letBind | ret => exact ⟨_, rfl, rfl⟩
    · cases hpart with
      | expr => exact ⟨_, rfl, rfl⟩
  · rintro ⟨e, he, rfl⟩
    cases stmt with
    | letBind name value =>
      obtain rfl : value = e := Option.some.inj he
      exact .inl .letBind
    | ret value =>
      obtain rfl : value = some e := he
      exact .inl .ret
    | expr value =>
      obtain rfl : value = e := Option.some.inj he
      exact .inr .expr

/-- The points that are reached from a point. -/
def Reaches : Point → Point → Prop :=
  Relation.ReflTransGen Part

/-- The operands that are met in the evaluation at a point. -/
def Meets (P Q : Point) : Prop :=
  ∃ P', P.Reaches P' ∧ P'.Operand Q

/-- An operand of a point is met there. -/
lemma Operand.meets {P Q : Point} (h : P.Operand Q) : P.Meets Q :=
  ⟨P, .refl, h⟩

/-- What is met in a part of a point is met in the point. -/
lemma Meets.of_part {P P' Q : Point} (hpart : P.Part P') (h : P'.Meets Q) : P.Meets Q := by
  obtain ⟨R, hreach, hop⟩ := h
  exact ⟨R, .head hpart hreach, hop⟩

/-! ## Induction -/

section

variable {C : Point → Prop} (h : ∀ P : Point, (∀ Q, P.Part Q → C Q) → C P) {d : Nat}

include h

/-- What is inherited from parts holds of all that quotations hand over, if it holds of every
expression one level deeper. -/
lemma induction_splices (hdeeper : ∀ d', d = d' + 1 → ∀ s e st, C ⟨d', s, .expr e, st⟩)
    (hs : List Expr) (s : ScopeId) (st : Store) : C ⟨d, s, .splices hs, st⟩ := by
  induction hs generalizing st with
  | nil =>
    refine h _ fun Q hQ => ?_
    rcases hQ with hQ | hQ <;> cases hQ
  | cons e hs ih =>
    refine h _ fun Q hQ => ?_
    rcases hQ with hQ | hQ
    · cases hQ with
      | unquoted harg => exact hdeeper _ rfl _ _ _
    · cases hQ with
      | restSplices hh => exact ih _

/-- What is inherited from parts holds of a statement if it holds of the expression that the
statement evaluates. -/
lemma induction_stmt {stmt : Stmt}
    (hvalue : ∀ e, stmt.value? = some e → ∀ s st, C ⟨d, s, .expr e, st⟩) (s : ScopeId)
    (st : Store) : C ⟨d, s, .stmt stmt, st⟩ := by
  refine h _ fun Q hQ => ?_
  obtain ⟨e, he, rfl⟩ := part_stmt_iff.mp hQ
  exact hvalue e he s st

/-- What is inherited from parts holds of statements if it holds of each of them. -/
lemma induction_stmts {ss : List Stmt} (hss : ∀ stmt ∈ ss, ∀ s st, C ⟨d, s, .stmt stmt, st⟩)
    (before : Value) (s : ScopeId) (st : Store) : C ⟨d, s, .stmts before ss, st⟩ := by
  induction ss generalizing before st with
  | nil =>
    refine h _ fun Q hQ => ?_
    rcases hQ with hQ | hQ <;> cases hQ
  | cons stmt ss ih =>
    rw [List.forall_mem_cons] at hss
    refine h _ fun Q hQ => ?_
    rcases hQ with hQ | hQ
    · cases hQ
    · cases hQ with
      | first => exact hss.1 _ _
      | next hs hv => exact ih hss.2 _ _

/-- What is inherited from parts holds of a list of expressions if it holds of each of them. -/
lemma induction_exprs {es : List Expr} (hes : ∀ e ∈ es, ∀ s st, C ⟨d, s, .expr e, st⟩)
    (s : ScopeId) (st : Store) : C ⟨d, s, .exprs es, st⟩ := by
  induction es generalizing st with
  | nil =>
    refine h _ fun Q hQ => ?_
    rcases hQ with hQ | hQ <;> cases hQ
  | cons e es ih =>
    rw [List.forall_mem_cons] at hes
    refine h _ fun Q hQ => ?_
    rcases hQ with hQ | hQ
    · cases hQ with
      | item => exact hes.1 _ _
    · cases hQ with
      | restExprs he => exact ih hes.2 _

/-- What is inherited from parts holds of entries if it holds of each key and value. -/
lemma induction_entries {pairs : List (Expr × Expr)}
    (hpairs : ∀ p ∈ pairs, (∀ s st, C ⟨d, s, .expr p.1, st⟩) ∧ ∀ s st, C ⟨d, s, .expr p.2, st⟩)
    (before : List (Key × Value)) (s : ScopeId) (st : Store) :
    C ⟨d, s, .entries before pairs, st⟩ := by
  induction pairs generalizing before st with
  | nil =>
    refine h _ fun Q hQ => ?_
    rcases hQ with hQ | hQ <;> cases hQ
  | cons p pairs ih =>
    rw [List.forall_mem_cons] at hpairs
    refine h _ fun Q hQ => ?_
    rcases hQ with hQ | hQ
    · cases hQ with
      | key => exact hpairs.1.1 _ _
      | value hk hkey => exact hpairs.1.2 _ _
    · cases hQ with
      | restEntries hk hkey he => exact ih hpairs.2 _ _

/-- What is inherited from parts holds of all expressions and statements at a depth, if it holds of
those one level deeper. -/
lemma induction_trees (hdeeper : ∀ d', d = d' + 1 → (∀ s e st, C ⟨d', s, .expr e, st⟩) ∧
      ∀ s before ss st, C ⟨d', s, .stmts before ss, st⟩) :
    (∀ (e : Expr) s st, C ⟨d, s, .expr e, st⟩) ∧
      ∀ (stmt : Stmt) s st, C ⟨d, s, .stmt stmt, st⟩ := by
  have hsplices := induction_splices h fun d' hd => (hdeeper d' hd).1
  apply Expr.induction
  case ident | int | bool | str =>
    intro a s st
    refine h _ fun Q hQ => ?_
    rcases hQ with hQ | hQ <;> cases hQ
  case fnLit | macroLit =>
    intro params body _ s st
    refine h _ fun Q hQ => ?_
    rcases hQ with hQ | hQ <;> cases hQ
  case unary =>
    intro op e ih s st
    refine h _ fun Q hQ => ?_
    rcases hQ with hQ | hQ
    · cases hQ with
      | unary => exact ih _ _
    · cases hQ
  case binary =>
    intro op l r ihl ihr s st
    refine h _ fun Q hQ => ?_
    rcases hQ with hQ | hQ
    · cases hQ with
      | left => exact ihl _ _
      | right hl => exact ihr _ _
    · cases hQ
  case cond =>
    intro c yes no ihc ihyes ihno s st
    refine h _ fun Q hQ => ?_
    rcases hQ with hQ | hQ
    · cases hQ with
      | test => exact ihc _ _
    · cases hQ with
      | yes hc ht => exact induction_stmts h ihyes _ _ _
      | no hc ht => exact induction_stmts h (ihno _ rfl) _ _ _
  case call =>
    intro f args ihf ihargs s st
    refine h _ fun Q hQ => ?_
    rcases hQ with hQ | hQ
    · cases hQ with
      | callee hf => exact ihf _ _
    · cases hQ with
      | quoted hf => exact hsplices _ _ _
      | args hquote hf => exact induction_exprs h ihargs _ _
      | body hquote hf hargs hlen => exact (hdeeper _ rfl).2 _ _ _ _
  case array =>
    intro items ih s st
    refine h _ fun Q hQ => ?_
    rcases hQ with hQ | hQ
    · cases hQ
    · cases hQ with
      | items => exact induction_exprs h ih _ _
  case hash =>
    intro pairs ih s st
    refine h _ fun Q hQ => ?_
    rcases hQ with hQ | hQ
    · cases hQ
    · cases hQ with
      | pairs => exact induction_entries h ih _ _ _
  case index =>
    intro b p ihb ihp s st
    refine h _ fun Q hQ => ?_
    rcases hQ with hQ | hQ
    · cases hQ with
      | base => exact ihb _ _
      | position hb => exact ihp _ _
    · cases hQ
  case letBind =>
    intro name e ih
    exact induction_stmt h fun _ he => Option.some.inj he ▸ ih
  case ret =>
    intro value ih
    exact induction_stmt h fun e he => ih e he
  case expr =>
    intro e ih
    exact induction_stmt h fun _ he => Option.some.inj he ▸ ih

end

/-- **Induction over points**: what every point inherits from its parts holds of all points.

**Proof sketch.** Induction on the depth, which only the body of a function and the argument of an
`unquote` make smaller, and for each depth induction over the trees and lists. -/
theorem induction {C : Point → Prop} (h : ∀ P : Point, (∀ Q, P.Part Q → C Q) → C P) (P : Point) :
    C P := by
  have htrees (d : Nat) : (∀ (e : Expr) s st, C ⟨d, s, .expr e, st⟩) ∧
      ∀ (stmt : Stmt) s st, C ⟨d, s, .stmt stmt, st⟩ := by
    induction d with
    | zero => exact induction_trees h (fun _ hd => absurd hd (by simp))
    | succ d ih =>
      refine induction_trees h fun d' hd => ?_
      obtain rfl : d = d' := by simpa using hd
      exact ⟨fun s e st => ih.1 e s st, fun s before ss st =>
        induction_stmts h (fun stmt _ => ih.2 stmt) before s st⟩
  obtain ⟨d, s, node, st⟩ := P
  cases node with
  | expr e => exact (htrees d).1 e s st
  | stmt stmt => exact (htrees d).2 stmt s st
  | stmts before ss => exact induction_stmts h (fun stmt _ => (htrees d).2 stmt) before s st
  | exprs es => exact induction_exprs h (fun e _ => (htrees d).1 e) s st
  | entries before rest =>
    exact induction_entries h (fun p _ => ⟨(htrees d).1 p.1, (htrees d).1 p.2⟩) before s st
  | splices hs =>
    exact induction_splices h (fun d' _ s e st => (htrees d').1 e s st) hs s st

end Point

end QuoteLang
