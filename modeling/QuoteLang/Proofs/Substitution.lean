import QuoteLang.Proofs.Replace

set_option relaxedAutoImplicit false
set_option autoImplicit false

/-!
# The replacing pass as a substitution

What one pass over a tree makes of it, said without the pass: a tree of the same shape, in which
answers stand in the places of the outermost names, literals, calls and macro literals. The pass
calls its function once on each of these, in the order of the source, and on nothing else; so its
answers are not looked into, and two passes can be made in one.

## Main definitions

* `Expr.Replaced`, `Stmt.Replaced`, `Tree.Replaced` — a tree with some of its expressions replaced
  by answers, one after the other.
* `Tree.handedOver`, `Tree.fill` — the expressions a pass over a tree hands over, and their places.
* `Tree.replace` — the pass with a function that has no effects.

## Main results

* `Tree.replaced_iff` — a tree determines what is replaced in it, and the answers determine the tree
  that results.
* `Tree.replaceM_substitutes` — the pass calls its function along what is replaced; it does nothing
  if the function does nothing, and passes can be composed.
-/

namespace QuoteLang

/-! ## Trees with replaced expressions -/

mutual

/-- An expression is another one in which the outermost names, literals, calls and macro literals,
listed in the order of the source, are replaced by as many answers. All else is the same in both. -/
inductive Expr.Replaced : Expr → List Expr → List Expr → Expr → Prop
  /-- A name, a literal, a call or a macro literal is replaced as a whole. -/
  | handedOver {e a : Expr} (h : e.IsHandedOver) : Expr.Replaced e [e] [a] a
  /-- The operand of a sign. -/
  | unary {op : UnaryOp} {e e' : Expr} {xs as : List Expr} (h : Expr.Replaced e xs as e') :
      Expr.Replaced (.unary op e) xs as (.unary op e')
  /-- The left operand, and then the right. -/
  | binary {op : BinaryOp} {l l' r r' : Expr} {xs as ys bs : List Expr}
      (hl : Expr.Replaced l xs as l') (hr : Expr.Replaced r ys bs r') :
      Expr.Replaced (.binary op l r) (xs ++ ys) (as ++ bs) (.binary op l' r')
  /-- The test of a choice, and then its only block. -/
  | cond {c c' : Expr} {yes yes' : List Stmt} {xs as ys bs : List Expr}
      (hc : Expr.Replaced c xs as c') (hyes : StmtsReplaced yes ys bs yes') :
      Expr.Replaced (.cond c yes none) (xs ++ ys) (as ++ bs) (.cond c' yes' none)
  /-- The test of a choice, then its first block, and then the second. -/
  | condElse {c c' : Expr} {yes yes' no no' : List Stmt} {xs as ys bs zs cs : List Expr}
      (hc : Expr.Replaced c xs as c') (hyes : StmtsReplaced yes ys bs yes')
      (hno : StmtsReplaced no zs cs no') :
      Expr.Replaced (.cond c yes (some no)) (xs ++ (ys ++ zs)) (as ++ (bs ++ cs))
        (.cond c' yes' (some no'))
  /-- The body of a function. -/
  | fnLit {params : List String} {body body' : List Stmt} {xs as : List Expr}
      (h : StmtsReplaced body xs as body') :
      Expr.Replaced (.fnLit params body) xs as (.fnLit params body')
  /-- The items of an array. -/
  | array {items items' xs as : List Expr} (h : ExprsReplaced items xs as items') :
      Expr.Replaced (.array items) xs as (.array items')
  /-- The entries of a hash. -/
  | hash {entries entries' : List (Expr × Expr)} {xs as : List Expr}
      (h : EntriesReplaced entries xs as entries') :
      Expr.Replaced (.hash entries) xs as (.hash entries')
  /-- What is indexed, and then the index. -/
  | index {b b' p p' : Expr} {xs as ys bs : List Expr} (hb : Expr.Replaced b xs as b')
      (hp : Expr.Replaced p ys bs p') :
      Expr.Replaced (.index b p) (xs ++ ys) (as ++ bs) (.index b' p')

/-- A statement is another one of its kind with answers in it. -/
inductive Stmt.Replaced : Stmt → List Expr → List Expr → Stmt → Prop
  /-- The value that a name is bound to. -/
  | letBind {name : String} {e e' : Expr} {xs as : List Expr} (h : Expr.Replaced e xs as e') :
      Stmt.Replaced (.letBind name e) xs as (.letBind name e')
  /-- A `return` without a value. -/
  | retNone : Stmt.Replaced (.ret none) [] [] (.ret none)
  /-- The value of a `return`. -/
  | ret {e e' : Expr} {xs as : List Expr} (h : Expr.Replaced e xs as e') :
      Stmt.Replaced (.ret (some e)) xs as (.ret (some e'))
  /-- An expression that stands as a statement. -/
  | expr {e e' : Expr} {xs as : List Expr} (h : Expr.Replaced e xs as e') :
      Stmt.Replaced (.expr e) xs as (.expr e')

/-- Statements are as many others with answers in them, from left to right. -/
inductive StmtsReplaced : List Stmt → List Expr → List Expr → List Stmt → Prop
  /-- No statements. -/
  | nil : StmtsReplaced [] [] [] []
  /-- A statement, and then the rest. -/
  | cons {s s' : Stmt} {ss ss' : List Stmt} {xs as ys bs : List Expr}
      (hs : Stmt.Replaced s xs as s') (hss : StmtsReplaced ss ys bs ss') :
      StmtsReplaced (s :: ss) (xs ++ ys) (as ++ bs) (s' :: ss')

/-- Expressions are as many others with answers in them, from left to right. -/
inductive ExprsReplaced : List Expr → List Expr → List Expr → List Expr → Prop
  /-- No expressions. -/
  | nil : ExprsReplaced [] [] [] []
  /-- An expression, and then the rest. -/
  | cons {e e' : Expr} {es es' xs as ys bs : List Expr} (he : Expr.Replaced e xs as e')
      (hes : ExprsReplaced es ys bs es') : ExprsReplaced (e :: es) (xs ++ ys) (as ++ bs) (e' :: es')

/-- The entries of a hash are as many others with answers in them, from left to right, and in each
entry the key before the value. -/
inductive EntriesReplaced :
    List (Expr × Expr) → List Expr → List Expr → List (Expr × Expr) → Prop
  /-- No entries. -/
  | nil : EntriesReplaced [] [] [] []
  /-- A key, its value, and then the rest. -/
  | cons {k k' v v' : Expr} {rest rest' : List (Expr × Expr)} {xs as ys bs zs cs : List Expr}
      (hk : Expr.Replaced k xs as k') (hv : Expr.Replaced v ys bs v')
      (hrest : EntriesReplaced rest zs cs rest') :
      EntriesReplaced ((k, v) :: rest) (xs ++ (ys ++ zs)) (as ++ (bs ++ cs)) ((k', v') :: rest')

end

/-- A part of a program is another one of its kind with answers in it. -/
inductive Tree.Replaced : Tree → List Expr → List Expr → Tree → Prop
  /-- The statements of a program. -/
  | program {p p' : Program} {xs as : List Expr} (h : StmtsReplaced p xs as p') :
      Replaced (.program p) xs as (.program p')
  /-- The statements of a block. -/
  | block {b b' : Block} {xs as : List Expr} (h : StmtsReplaced b xs as b') :
      Replaced (.block b) xs as (.block b')
  /-- A statement. -/
  | stmt {s s' : Stmt} {xs as : List Expr} (h : s.Replaced xs as s') :
      Replaced (.stmt s) xs as (.stmt s')
  /-- An expression. -/
  | expr {e e' : Expr} {xs as : List Expr} (h : e.Replaced xs as e') :
      Replaced (.expr e) xs as (.expr e')

/-! ## What is replaced and what results -/

/-- A relation is **determined**: it holds of certain expressions only, of as many answers as there
are of these, and of the result of filling in the answers. -/
def Determined {α : Type} (R : List Expr → List Expr → α → Prop) (handedOver : List Expr)
    (fill : List Expr → α) : Prop :=
  ∀ xs as a, R xs as a ↔ xs = handedOver ∧ as.length = xs.length ∧ a = fill as

/-- Two parts with answers in them, the first before the second. -/
def Both {α β : Type} (R : List Expr → List Expr → α → Prop) (S : List Expr → List Expr → β → Prop)
    (zs cs : List Expr) (p : α × β) : Prop :=
  ∃ xs as ys bs, zs = xs ++ ys ∧ cs = as ++ bs ∧ R xs as p.1 ∧ S ys bs p.2

namespace Determined

variable {α β : Type} {R : List Expr → List Expr → α → Prop} {S : List Expr → List Expr → β → Prop}
  {xs ys : List Expr} {f : List Expr → α} {g : List Expr → β}

/-- What is built from something determined is determined. -/
lemma map (hR : Determined R xs f) (build : α → β)
    (hS : ∀ zs as b, S zs as b ↔ ∃ a, R zs as a ∧ b = build a) :
    Determined S xs fun as => build (f as) := by
  intro zs as b
  rw [hS]
  constructor
  · rintro ⟨a, ha, rfl⟩
    obtain ⟨hzs, hlen, rfl⟩ := (hR _ _ _).mp ha
    exact ⟨hzs, hlen, rfl⟩
  · rintro ⟨hzs, hlen, rfl⟩
    exact ⟨_, (hR _ _ _).mpr ⟨hzs, hlen, rfl⟩, rfl⟩

/-- Two parts are determined if each of them is: the first takes as many answers as it needs, and
the second those after them. -/
lemma both (hR : Determined R xs f) (hS : Determined S ys g) :
    Determined (Both R S) (xs ++ ys) fun cs => (f (cs.take xs.length), g (cs.drop xs.length)) := by
  rintro zs cs ⟨a, b⟩
  constructor
  · rintro ⟨_, as, _, bs, rfl, rfl, ha, hb⟩
    obtain ⟨rfl, has, rfl⟩ := (hR _ _ _).mp ha
    obtain ⟨rfl, hbs, rfl⟩ := (hS _ _ _).mp hb
    refine ⟨rfl, by rw [List.length_append, List.length_append, has, hbs], ?_⟩
    simp only [← has, List.take_left, List.drop_left]
  · rintro ⟨rfl, hlen, hab⟩
    rw [List.length_append] at hlen
    obtain ⟨rfl, rfl⟩ := Prod.mk.inj hab
    refine ⟨xs, cs.take xs.length, ys, cs.drop xs.length, rfl, (List.take_append_drop _ _).symm,
      (hR _ _ _).mpr ⟨rfl, ?_, rfl⟩, (hS _ _ _).mpr ⟨rfl, ?_, rfl⟩⟩
    · rw [List.length_take]
      omega
    · rw [List.length_drop]
      omega

end Determined

/-- Statements with answers in them are determined if each of them is. -/
lemma stmtsReplaced_determined {ss : List Stmt}
    (h : ∀ s ∈ ss, Determined s.Replaced s.handedOver s.fill) :
    Determined (StmtsReplaced ss) (handedOverStmts ss) (fillStmts ss) := by
  induction ss with
  | nil =>
    intro xs as ss'
    rw [handedOverStmts, fillStmts]
    constructor
    · rintro ⟨⟩
      exact ⟨rfl, rfl, rfl⟩
    · rintro ⟨rfl, has, rfl⟩
      obtain rfl := List.eq_nil_of_length_eq_zero has
      exact .nil
  | cons s ss ih =>
    rw [List.forall_mem_cons] at h
    intro xs as ss'
    rw [handedOverStmts, fillStmts]
    refine ((h.1.both (ih h.2)).map (fun p => p.1 :: p.2) fun zs cs r => ?_) xs as ss'
    constructor
    · intro h
      cases h with
      | cons hs hss => exact ⟨(_, _), ⟨_, _, _, _, rfl, rfl, hs, hss⟩, rfl⟩
    · rintro ⟨⟨_, _⟩, ⟨_, _, _, _, rfl, rfl, hs, hss⟩, rfl⟩
      exact .cons hs hss

/-- Expressions with answers in them are determined if each of them is. -/
lemma exprsReplaced_determined {es : List Expr}
    (h : ∀ e ∈ es, Determined e.Replaced e.handedOver e.fill) :
    Determined (ExprsReplaced es) (handedOverExprs es) (fillExprs es) := by
  induction es with
  | nil =>
    intro xs as es'
    rw [handedOverExprs, fillExprs]
    constructor
    · rintro ⟨⟩
      exact ⟨rfl, rfl, rfl⟩
    · rintro ⟨rfl, has, rfl⟩
      obtain rfl := List.eq_nil_of_length_eq_zero has
      exact .nil
  | cons e es ih =>
    rw [List.forall_mem_cons] at h
    intro xs as es'
    rw [handedOverExprs, fillExprs]
    refine ((h.1.both (ih h.2)).map (fun p => p.1 :: p.2) fun zs cs r => ?_) xs as es'
    constructor
    · intro h
      cases h with
      | cons he hes => exact ⟨(_, _), ⟨_, _, _, _, rfl, rfl, he, hes⟩, rfl⟩
    · rintro ⟨⟨_, _⟩, ⟨_, _, _, _, rfl, rfl, he, hes⟩, rfl⟩
      exact .cons he hes

/-- Entries with answers in them are determined if each key and value is. -/
lemma entriesReplaced_determined {entries : List (Expr × Expr)}
    (h : ∀ e ∈ entries, Determined e.1.Replaced e.1.handedOver e.1.fill ∧
      Determined e.2.Replaced e.2.handedOver e.2.fill) :
    Determined (EntriesReplaced entries) (handedOverEntries entries) (fillEntries entries) := by
  induction entries with
  | nil =>
    intro xs as entries'
    rw [handedOverEntries, fillEntries]
    constructor
    · rintro ⟨⟩
      exact ⟨rfl, rfl, rfl⟩
    · rintro ⟨rfl, has, rfl⟩
      obtain rfl := List.eq_nil_of_length_eq_zero has
      exact .nil
  | cons entry entries ih =>
    obtain ⟨k, v⟩ := entry
    rw [List.forall_mem_cons] at h
    intro xs as entries'
    rw [handedOverEntries, fillEntries]
    refine ((h.1.1.both (h.1.2.both (ih h.2))).map (fun p => (p.1, p.2.1) :: p.2.2)
      fun zs cs r => ?_) xs as entries'
    constructor
    · intro h
      cases h with
      | cons hk hv hrest =>
        exact ⟨(_, _, _), ⟨_, _, _, _, rfl, rfl, hk, _, _, _, _, rfl, rfl, hv, hrest⟩, rfl⟩
    · rintro ⟨⟨_, _, _⟩, ⟨_, _, _, _, rfl, rfl, hk, _, _, _, _, rfl, rfl, hv, hrest⟩, rfl⟩
      exact .cons hk hv hrest

/-- What is handed over is determined: one answer stands for the whole. -/
lemma Expr.IsHandedOver.determined {e : Expr} (h : e.IsHandedOver) :
    Determined e.Replaced e.handedOver e.fill := by
  have hlist : e.handedOver = [e] := by
    cases e <;> simp_all [Expr.handedOver, Expr.IsHandedOver]
  have hfill (as : List Expr) : e.fill as = as.headD e := by
    cases e <;> simp_all [Expr.fill, Expr.IsHandedOver]
  intro xs as e'
  rw [hlist, hfill]
  constructor
  · intro hreplaced
    cases hreplaced with
    | handedOver => exact ⟨rfl, rfl, rfl⟩
    | _ => cases h
  · rintro ⟨rfl, has, rfl⟩
    obtain ⟨a, rfl⟩ := List.length_eq_one_iff.mp has
    exact .handedOver h

/-- Every expression and every statement with answers in it is determined. -/
lemma replaced_determined_aux :
    (∀ e : Expr, Determined e.Replaced e.handedOver e.fill) ∧
      ∀ s : Stmt, Determined s.Replaced s.handedOver s.fill := by
  apply Expr.induction
  case ident | int | bool | str =>
    intro a
    exact Expr.IsHandedOver.determined trivial
  case call | macroLit =>
    intros
    exact Expr.IsHandedOver.determined trivial
  case unary =>
    intro op e ih xs as e'
    rw [Expr.handedOver, Expr.fill]
    refine (ih.map (Expr.unary op) fun zs cs r => ?_) xs as e'
    constructor
    · intro h
      cases h with
      | handedOver h => cases h
      | unary h => exact ⟨_, h, rfl⟩
    · rintro ⟨_, h, rfl⟩
      exact .unary h
  case binary =>
    intro op l r ihl ihr xs as e'
    rw [Expr.handedOver, Expr.fill]
    refine ((ihl.both ihr).map (fun p => Expr.binary op p.1 p.2) fun zs cs t => ?_) xs as e'
    constructor
    · intro h
      cases h with
      | handedOver h => cases h
      | binary hl hr => exact ⟨(_, _), ⟨_, _, _, _, rfl, rfl, hl, hr⟩, rfl⟩
    · rintro ⟨⟨_, _⟩, ⟨_, _, _, _, rfl, rfl, hl, hr⟩, rfl⟩
      exact .binary hl hr
  case cond =>
    intro c yes no ihc ihyes ihno xs as e'
    have hyes := stmtsReplaced_determined ihyes
    cases no with
    | none =>
      rw [Expr.handedOver, Expr.fill]
      refine ((ihc.both hyes).map (fun p => Expr.cond p.1 p.2 none) fun zs cs t => ?_) xs as e'
      constructor
      · intro h
        cases h with
        | handedOver h => cases h
        | cond hc hyes => exact ⟨(_, _), ⟨_, _, _, _, rfl, rfl, hc, hyes⟩, rfl⟩
      · rintro ⟨⟨_, _⟩, ⟨_, _, _, _, rfl, rfl, hc, hyes⟩, rfl⟩
        exact .cond hc hyes
    | some no =>
      rw [Expr.handedOver, Expr.fill]
      refine ((ihc.both (hyes.both (stmtsReplaced_determined (ihno no rfl)))).map
        (fun p => Expr.cond p.1 p.2.1 (some p.2.2)) fun zs cs t => ?_) xs as e'
      constructor
      · intro h
        cases h with
        | handedOver h => cases h
        | condElse hc hyes hno =>
          exact ⟨(_, _, _), ⟨_, _, _, _, rfl, rfl, hc, _, _, _, _, rfl, rfl, hyes, hno⟩, rfl⟩
      · rintro ⟨⟨_, _, _⟩, ⟨_, _, _, _, rfl, rfl, hc, _, _, _, _, rfl, rfl, hyes, hno⟩, rfl⟩
        exact .condElse hc hyes hno
  case fnLit =>
    intro params body ih xs as e'
    rw [Expr.handedOver, Expr.fill]
    refine ((stmtsReplaced_determined ih).map (Expr.fnLit params) fun zs cs r => ?_) xs as e'
    constructor
    · intro h
      cases h with
      | handedOver h => cases h
      | fnLit h => exact ⟨_, h, rfl⟩
    · rintro ⟨_, h, rfl⟩
      exact .fnLit h
  case array =>
    intro items ih xs as e'
    rw [Expr.handedOver, Expr.fill]
    refine ((exprsReplaced_determined ih).map Expr.array fun zs cs r => ?_) xs as e'
    constructor
    · intro h
      cases h with
      | handedOver h => cases h
      | array h => exact ⟨_, h, rfl⟩
    · rintro ⟨_, h, rfl⟩
      exact .array h
  case hash =>
    intro entries ih xs as e'
    rw [Expr.handedOver, Expr.fill]
    refine ((entriesReplaced_determined ih).map Expr.hash fun zs cs r => ?_) xs as e'
    constructor
    · intro h
      cases h with
      | handedOver h => cases h
      | hash h => exact ⟨_, h, rfl⟩
    · rintro ⟨_, h, rfl⟩
      exact .hash h
  case index =>
    intro b p ihb ihp xs as e'
    rw [Expr.handedOver, Expr.fill]
    refine ((ihb.both ihp).map (fun q => Expr.index q.1 q.2) fun zs cs t => ?_) xs as e'
    constructor
    · intro h
      cases h with
      | handedOver h => cases h
      | index hb hp => exact ⟨(_, _), ⟨_, _, _, _, rfl, rfl, hb, hp⟩, rfl⟩
    · rintro ⟨⟨_, _⟩, ⟨_, _, _, _, rfl, rfl, hb, hp⟩, rfl⟩
      exact .index hb hp
  case letBind =>
    intro name e ih xs as s'
    rw [Stmt.handedOver, Stmt.fill]
    refine (ih.map (Stmt.letBind name) fun zs cs r => ?_) xs as s'
    constructor
    · intro h
      cases h with
      | letBind h => exact ⟨_, h, rfl⟩
    · rintro ⟨_, h, rfl⟩
      exact .letBind h
  case ret =>
    intro value ih xs as s'
    cases value with
    | none =>
      rw [Stmt.handedOver, Stmt.fill]
      constructor
      · rintro ⟨⟩
        exact ⟨rfl, rfl, rfl⟩
      · rintro ⟨rfl, has, rfl⟩
        obtain rfl := List.eq_nil_of_length_eq_zero has
        exact .retNone
    | some e =>
      rw [Stmt.handedOver, Stmt.fill]
      refine ((ih e rfl).map (fun e => Stmt.ret (some e)) fun zs cs r => ?_) xs as s'
      constructor
      · intro h
        cases h with
        | ret h => exact ⟨_, h, rfl⟩
      · rintro ⟨_, h, rfl⟩
        exact .ret h
  case expr =>
    intro e ih xs as s'
    rw [Stmt.handedOver, Stmt.fill]
    refine (ih.map Stmt.expr fun zs cs r => ?_) xs as s'
    constructor
    · intro h
      cases h with
      | expr h => exact ⟨_, h, rfl⟩
    · rintro ⟨_, h, rfl⟩
      exact .expr h

/-! ## Parts of any kind -/

namespace Tree

/-- The expressions that the pass over a part of a program hands over, in the order of the
source. -/
def handedOver : Tree → List Expr
  | program p => handedOverStmts p
  | block b => handedOverStmts b
  | stmt s => s.handedOver
  | expr e => e.handedOver

/-- Puts answers in the places of what a part of a program hands over. -/
def fill : Tree → List Expr → Tree
  | program p, as => program (fillStmts p as)
  | block b, as => block (fillStmts b as)
  | stmt s, as => stmt (s.fill as)
  | expr e, as => expr (e.fill as)

/-- The pass with a function that has no effects. -/
def replace (f : Expr → Expr) (t : Tree) : Tree :=
  Id.run (t.replaceM fun e => pure (f e))

/-- **A tree determines what is replaced in it**, and the answers determine the tree that results:
there are as many answers as expressions that are handed over, and they are filled in. -/
theorem replaced_iff (t : Tree) : Determined t.Replaced t.handedOver t.fill := by
  intro xs as t'
  cases t with
  | program p =>
    have hp : Determined (StmtsReplaced p) (handedOverStmts p) (fillStmts p) :=
      stmtsReplaced_determined fun s _ => replaced_determined_aux.2 s
    refine (hp.map program fun zs cs r => ?_) xs as t'
    constructor
    · intro h
      cases h with
      | program h => exact ⟨_, h, rfl⟩
    · rintro ⟨_, h, rfl⟩
      exact .program h
  | block b =>
    have hb : Determined (StmtsReplaced b) (handedOverStmts b) (fillStmts b) :=
      stmtsReplaced_determined fun s _ => replaced_determined_aux.2 s
    refine (hb.map block fun zs cs r => ?_) xs as t'
    constructor
    · intro h
      cases h with
      | block h => exact ⟨_, h, rfl⟩
    · rintro ⟨_, h, rfl⟩
      exact .block h
  | stmt s =>
    refine ((replaced_determined_aux.2 s).map stmt fun zs cs r => ?_) xs as t'
    constructor
    · intro h
      cases h with
      | stmt h => exact ⟨_, h, rfl⟩
    · rintro ⟨_, h, rfl⟩
      exact .stmt h
  | expr e =>
    refine ((replaced_determined_aux.1 e).map expr fun zs cs r => ?_) xs as t'
    constructor
    · intro h
      cases h with
      | expr h => exact ⟨_, h, rfl⟩
    · rintro ⟨_, h, rfl⟩
      exact .expr h

end Tree

/-! ## Passes that do nothing, and passes one after the other -/

section

variable {m : Type → Type} [Monad m] [LawfulMonad m]

/-- The pass over a part of a program calls its function along the list of what is handed over and
fills in the answers. -/
lemma Tree.replaceM_eq (f : Expr → m Expr) (t : Tree) :
    t.replaceM f = (t.handedOver.mapM f >>= fun as => pure (t.fill as)) := by
  cases t with
  | program p =>
    rw [replaceM, Block.replaceM_eq, bind_assoc]
    simp only [pure_bind, handedOver, fill]
  | block b =>
    rw [replaceM, Block.replaceM_eq, bind_assoc]
    simp only [pure_bind, handedOver, fill]
  | stmt s =>
    rw [replaceM, (replaceM_eq_aux f).2, bind_assoc]
    simp only [pure_bind, handedOver, fill]
  | expr e =>
    rw [replaceM, Expr.replaceM_eq, bind_assoc]
    simp only [pure_bind, handedOver, fill]

/-- The pass over statements does nothing if it does nothing to each of them. -/
lemma replaceStmtsM_pure {ss : List Stmt}
    (h : ∀ s ∈ ss, s.replaceM (pure : Expr → m Expr) = pure s) :
    replaceStmtsM (pure : Expr → m Expr) ss = pure ss := by
  induction ss with
  | nil => rw [replaceStmtsM]
  | cons s ss ih =>
    rw [List.forall_mem_cons] at h
    rw [replaceStmtsM, h.1, ih h.2, pure_bind, pure_bind]

/-- The pass over a list does nothing if it does nothing to each expression. -/
lemma replaceExprsM_pure {es : List Expr}
    (h : ∀ e ∈ es, e.replaceM (pure : Expr → m Expr) = pure e) :
    replaceExprsM (pure : Expr → m Expr) es = pure es := by
  induction es with
  | nil => rw [replaceExprsM]
  | cons e es ih =>
    rw [List.forall_mem_cons] at h
    rw [replaceExprsM, h.1, ih h.2, pure_bind, pure_bind]

/-- The pass over entries does nothing if it does nothing to each key and value. -/
lemma replaceEntriesM_pure {entries : List (Expr × Expr)}
    (h : ∀ e ∈ entries, e.1.replaceM (pure : Expr → m Expr) = pure e.1 ∧
      e.2.replaceM (pure : Expr → m Expr) = pure e.2) :
    replaceEntriesM (pure : Expr → m Expr) entries = pure entries := by
  induction entries with
  | nil => rw [replaceEntriesM]
  | cons entry entries ih =>
    obtain ⟨key, value⟩ := entry
    rw [List.forall_mem_cons] at h
    rw [replaceEntriesM, h.1.1, h.1.2, ih h.2, pure_bind, pure_bind, pure_bind]

/-- The pass does nothing to expressions and statements if its function does nothing. -/
lemma replaceM_pure_aux : (∀ e : Expr, e.replaceM (pure : Expr → m Expr) = pure e) ∧
    ∀ s : Stmt, s.replaceM (pure : Expr → m Expr) = pure s := by
  apply Expr.induction
  case ident | int | bool | str =>
    intro a
    rw [Expr.replaceM]
  case call | macroLit =>
    intros
    rw [Expr.replaceM]
  case unary =>
    intro op e ih
    rw [Expr.replaceM, ih, pure_bind]
  case binary =>
    intro op l r ihl ihr
    rw [Expr.replaceM, ihl, ihr, pure_bind, pure_bind]
  case cond =>
    intro c yes no ihc ihyes ihno
    cases no with
    | none => rw [Expr.replaceM, ihc, replaceStmtsM_pure ihyes, pure_bind, pure_bind]
    | some no =>
      rw [Expr.replaceM, ihc, replaceStmtsM_pure ihyes, replaceStmtsM_pure (ihno no rfl), pure_bind,
        pure_bind, pure_bind]
  case fnLit =>
    intro params body ih
    rw [Expr.replaceM, replaceStmtsM_pure ih, pure_bind]
  case array =>
    intro items ih
    rw [Expr.replaceM, replaceExprsM_pure ih, pure_bind]
  case hash =>
    intro entries ih
    rw [Expr.replaceM, replaceEntriesM_pure ih, pure_bind]
  case index =>
    intro base position ihb ihp
    rw [Expr.replaceM, ihb, ihp, pure_bind, pure_bind]
  case letBind =>
    intro name e ih
    rw [Stmt.replaceM, ih, pure_bind]
  case ret =>
    intro value ih
    cases value with
    | none => rw [Stmt.replaceM]
    | some e => rw [Stmt.replaceM, ih e rfl, pure_bind]
  case expr =>
    intro e ih
    rw [Stmt.replaceM, ih, pure_bind]

/-- **A function that does nothing** makes a pass that does nothing. -/
theorem Tree.replaceM_pure (t : Tree) : t.replaceM (pure : Expr → m Expr) = pure t := by
  have hstmts (ss : List Stmt) : replaceStmtsM (pure : Expr → m Expr) ss = pure ss :=
    replaceStmtsM_pure fun s _ => replaceM_pure_aux.2 s
  cases t with
  | program p => rw [replaceM, Block.replaceM, hstmts, pure_bind]
  | block b => rw [replaceM, Block.replaceM, hstmts, pure_bind]
  | stmt s => rw [replaceM, replaceM_pure_aux.2, pure_bind]
  | expr e => rw [replaceM, replaceM_pure_aux.1, pure_bind]

end

section

variable {m : Type → Type} [Monad m] {f : Expr → Id Expr} {g : Expr → m Expr}

/-- Two passes over statements are one if they are for each statement. -/
lemma replaceStmtsM_comp {ss : List Stmt}
    (h : ∀ s ∈ ss, (s.replaceM f).run.replaceM g = s.replaceM fun e => g (f e).run) :
    replaceStmtsM g (replaceStmtsM f ss).run = replaceStmtsM (fun e => g (f e).run) ss := by
  induction ss with
  | nil => simp only [replaceStmtsM, Id.run_pure]
  | cons s ss ih =>
    rw [List.forall_mem_cons] at h
    simp only [replaceStmtsM, Id.run_bind, Id.run_pure, h.1, ih h.2]

/-- Two passes over a list are one if they are for each expression. -/
lemma replaceExprsM_comp {es : List Expr}
    (h : ∀ e ∈ es, (e.replaceM f).run.replaceM g = e.replaceM fun x => g (f x).run) :
    replaceExprsM g (replaceExprsM f es).run = replaceExprsM (fun x => g (f x).run) es := by
  induction es with
  | nil => simp only [replaceExprsM, Id.run_pure]
  | cons e es ih =>
    rw [List.forall_mem_cons] at h
    simp only [replaceExprsM, Id.run_bind, Id.run_pure, h.1, ih h.2]

/-- Two passes over entries are one if they are for each key and value. -/
lemma replaceEntriesM_comp {entries : List (Expr × Expr)}
    (h : ∀ e ∈ entries, ((e.1.replaceM f).run.replaceM g = e.1.replaceM fun x => g (f x).run) ∧
      (e.2.replaceM f).run.replaceM g = e.2.replaceM fun x => g (f x).run) :
    replaceEntriesM g (replaceEntriesM f entries).run =
      replaceEntriesM (fun x => g (f x).run) entries := by
  induction entries with
  | nil => simp only [replaceEntriesM, Id.run_pure]
  | cons entry entries ih =>
    obtain ⟨key, value⟩ := entry
    rw [List.forall_mem_cons] at h
    simp only [replaceEntriesM, Id.run_bind, Id.run_pure, h.1.1, h.1.2, ih h.2]

/-- Two passes over expressions and statements are one, if the answers of the first are handed over
by the second. -/
lemma replaceM_comp_aux (hf : ∀ e : Expr, e.IsHandedOver → (f e).run.IsHandedOver) :
    (∀ e : Expr, (e.replaceM f).run.replaceM g = e.replaceM fun x => g (f x).run) ∧
      ∀ s : Stmt, (s.replaceM f).run.replaceM g = s.replaceM fun x => g (f x).run := by
  apply Expr.induction
  case ident | int | bool | str =>
    intro a
    rw [Expr.replaceM, Expr.replaceM]
    exact Expr.replaceM_of_isHandedOver g (hf _ trivial)
  case call | macroLit =>
    intros
    rw [Expr.replaceM, Expr.replaceM]
    exact Expr.replaceM_of_isHandedOver g (hf _ trivial)
  case unary =>
    intro op e ih
    simp only [Expr.replaceM, Id.run_bind, Id.run_pure, ih]
  case binary =>
    intro op l r ihl ihr
    simp only [Expr.replaceM, Id.run_bind, Id.run_pure, ihl, ihr]
  case cond =>
    intro c yes no ihc ihyes ihno
    have hyes := replaceStmtsM_comp ihyes
    cases no with
    | none => simp only [Expr.replaceM, Id.run_bind, Id.run_pure, ihc, hyes]
    | some no =>
      have hno := replaceStmtsM_comp (ihno no rfl)
      simp only [Expr.replaceM, Id.run_bind, Id.run_pure, ihc, hyes, hno]
  case fnLit =>
    intro params body ih
    have hbody := replaceStmtsM_comp ih
    simp only [Expr.replaceM, Id.run_bind, Id.run_pure, hbody]
  case array =>
    intro items ih
    have hitems := replaceExprsM_comp ih
    simp only [Expr.replaceM, Id.run_bind, Id.run_pure, hitems]
  case hash =>
    intro entries ih
    have hentries := replaceEntriesM_comp ih
    simp only [Expr.replaceM, Id.run_bind, Id.run_pure, hentries]
  case index =>
    intro base position ihb ihp
    simp only [Expr.replaceM, Id.run_bind, Id.run_pure, ihb, ihp]
  case letBind =>
    intro name e ih
    simp only [Stmt.replaceM, Id.run_bind, Id.run_pure, ih]
  case ret =>
    intro value ih
    cases value with
    | none => simp only [Stmt.replaceM, Id.run_pure]
    | some e =>
      have hvalue := ih e rfl
      simp only [Stmt.replaceM, Id.run_bind, Id.run_pure, hvalue]
  case expr =>
    intro e ih
    simp only [Stmt.replaceM, Id.run_bind, Id.run_pure, ih]

/-- **Two passes are one** that answers with both functions, if the answers of the first, which has
no effects, are handed over by the second. -/
theorem Tree.replaceM_replace {f : Expr → Expr} (g : Expr → m Expr)
    (hf : ∀ e : Expr, e.IsHandedOver → (f e).IsHandedOver) (t : Tree) :
    (t.replace f).replaceM g = t.replaceM fun e => g (f e) := by
  have hcomp := replaceM_comp_aux (f := fun e => pure (f e)) (g := g) hf
  have hstmts (ss : List Stmt) := replaceStmtsM_comp fun s (_ : s ∈ ss) => hcomp.2 s
  simp only [Id.run_pure] at hcomp hstmts
  cases t with
  | program p =>
    simp only [replace, replaceM, Block.replaceM, Id.run_bind, Id.run_pure, hstmts]
  | block b =>
    simp only [replace, replaceM, Block.replaceM, Id.run_bind, Id.run_pure, hstmts]
  | stmt s => simp only [replace, replaceM, Id.run_bind, Id.run_pure, hcomp.2]
  | expr e => simp only [replace, replaceM, Id.run_bind, Id.run_pure, hcomp.1]

end

/-! ## One pass -/

/-- **The pass is a substitution in one step.** Whatever effects its function has, the pass over a
part of a program calls it once on each expression that is handed over, in the order of the source,
and on nothing else, and puts its answers in their places. What is handed over is what is replaced
in the tree, and all else is left as it is. So a function that does nothing makes a pass that does
nothing, and a pass after one whose function has no effects, and whose answers are handed over
again, is a single pass. -/
theorem Tree.replaceM_substitutes {m : Type → Type} [Monad m] [LawfulMonad m] (t : Tree) :
    (∀ f : Expr → m Expr,
      t.replaceM f = (t.handedOver.mapM f >>= fun answers => pure (t.fill answers))) ∧
    (∀ (xs answers : List Expr) (t' : Tree), t.Replaced xs answers t' ↔
      xs = t.handedOver ∧ answers.length = xs.length ∧ t' = t.fill answers) ∧
    t.replaceM (pure : Expr → m Expr) = pure t ∧
    ∀ (f : Expr → Expr) (g : Expr → m Expr), (∀ e, e.IsHandedOver → (f e).IsHandedOver) →
      (t.replace f).replaceM g = t.replaceM fun e => g (f e) :=
  ⟨fun f => t.replaceM_eq f, t.replaced_iff, t.replaceM_pure, fun _ g hf =>
    t.replaceM_replace g hf⟩

/-- Answers an integer by the next one, and everything else by itself. -/
def nextInt : Expr → Expr
  | .int n => .int (n + 1)
  | e => e

/-- What is handed over is answered by something that is handed over. -/
lemma isHandedOver_nextInt {e : Expr} (h : e.IsHandedOver) : (nextInt e).IsHandedOver := by
  unfold nextInt
  split
  · trivial
  · exact h

/-- Keeps a list of what it is called on, and answers in the same way. -/
def nextIntListed (e : Expr) : StateM (List Expr) Expr :=
  fun seen => (nextInt e, seen ++ [e])

/-- A key is met before its value, and the integer in a call is not replaced. -/
lemma Tree.replaceM_substitutes_hash :
    let key : Expr := .call (.ident "f") [.int 1]
    let t : Tree := .expr (.hash [(key, .unary .neg (.int 1)), (.int 2, .ident "a")])
    let t' : Tree := .expr (.hash [(key, .unary .neg (.int 2)), (.int 3, .ident "a")])
    t.replaceM nextIntListed [] = (t', [key, .int 1, .int 2, .ident "a"]) ∧
      t.Replaced [key, .int 1, .int 2, .ident "a"] [key, .int 2, .int 3, .ident "a"] t' ∧
      (t.replace nextInt).replaceM nextIntListed =
        t.replaceM fun e => nextIntListed (nextInt e) := by
  intro key t t'
  have h := Tree.replaceM_substitutes (m := StateM (List Expr)) t
  have hseen : t.handedOver = [key, .int 1, .int 2, .ident "a"] := by with_unfolding_all rfl
  have hfill : t.fill [key, .int 2, .int 3, .ident "a"] = t' := by with_unfolding_all rfl
  refine ⟨?_, (h.2.1 _ _ _).mpr ⟨hseen.symm, rfl, hfill.symm⟩, ?_⟩
  · rw [h.1, hseen]
    with_unfolding_all rfl
  · exact h.2.2.2 _ _ fun _ => isHandedOver_nextInt

end QuoteLang
