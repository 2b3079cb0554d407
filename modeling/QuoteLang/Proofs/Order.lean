import QuoteLang.Proofs.Point
import QuoteLang.Proofs.Ensures

set_option relaxedAutoImplicit false
set_option autoImplicit false

/-!
# The order of evaluation

The parts of a point are evaluated one after the other. Each begins where the one before it has
ended with a value, so nothing comes after a part that has not ended with a value.

## Main definitions

* `Outcome.next` — what comes after a run that has ended with a value.
* `Point.parts` — the parts of a point that are evaluated, in order.
* `Point.outcome` — how the evaluation at a point ends.
* `Point.EndsIn` — an evaluation comes to another one, and to nothing after it.

## Main results

* `Point.mem_parts` — these are the parts of the point, and no others.
* `Point.Part.outcome_of_fault` — a fault of a part is the fault of the whole.
* `Point.Part.getLast?_of_fault` — a part that ends with a fault is the last.
* `Point.Reaches.of_fault` — an evaluation ends at the first fault it comes to.
-/

namespace QuoteLang

open Run

/-- What comes after a run: nothing unless it ends with a value. -/
def Outcome.next {ε α β : Type} (o : Outcome ε α) (f : α → Store → List β) : List β :=
  match o with
  | .ok a st => f a st
  | .fault _ _ | .tooDeep => []

section

variable {ε α β : Type} {f : α → Store → List β}

/-- After a run that has ended with a value comes what depends on it. -/
@[simp] lemma Outcome.next_ok (a : α) (st : Store) :
    (Outcome.ok a st : Outcome ε α).next f = f a st := rfl

/-- Nothing comes after a fault. -/
@[simp] lemma Outcome.next_fault (e : ε) (st : Store) :
    (Outcome.fault e st : Outcome ε α).next f = [] := rfl

/-- What comes after a run comes after a value of it. -/
lemma Outcome.mem_next {o : Outcome ε α} {b : β} :
    b ∈ o.next f ↔ ∃ a st, o = .ok a st ∧ b ∈ f a st := by
  constructor
  · intro h
    cases o with
    | ok a st => exact ⟨a, st, rfl, h⟩
    | fault e st => cases h
    | tooDeep => cases h
  · rintro ⟨a, st, rfl, h⟩
    exact h

/-- Nothing comes after what is met before a run that ends with a fault. -/
lemma Outcome.getLast?_cons_next {o : Outcome ε α} {e : ε} {st : Store} (h : o = .fault e st)
    (b : β) : (b :: o.next f).getLast? = some b := by
  rw [h, next_fault, List.getLast?_singleton]

/-- Something and what comes after a run. -/
lemma Outcome.mem_cons_next {o : Outcome ε α} {b c : β} :
    b ∈ c :: o.next f ↔ b = c ∨ ∃ a st, o = .ok a st ∧ b ∈ f a st := by
  rw [List.mem_cons, mem_next]

end

namespace Run

variable {ε α β : Type} {x : Run ε α} {f : α → Run ε β} {st st₁ : Store}

/-- After a value the second run of a sequence begins. -/
lemma bind_of_ok {a : α} (h : x st = .ok a st₁) : (x >>= f) st = f a st₁ := by
  change Run.bind x f st = _
  rw [Run.bind, h]

/-- After a fault the second run of a sequence is left out. -/
lemma bind_of_fault {e : ε} (h : x st = .fault e st₁) : (x >>= f) st = .fault e st₁ :=
  bind_eq_fault.mpr (.inl h)

end Run

/-- A call of a function evaluates the body with the parameters bound in a new scope. -/
lemma applyWith_function {deeper : Deeper} {c : Closure} {vs : List Value} {st : Store}
    (hlen : vs.length = c.params.length) : applyWith deeper (.function c) vs st =
      (deeper c.body st.scopes.size >>= fun v => settle v.unwrapReturn)
        ((st.enclose c.scope).2.bindAll st.scopes.size (c.params.zip vs)) := by
  rw [applyWith, if_pos hlen]
  rfl

namespace Point

/-- What comes after the function of a call and its arguments: the body of the function, if it takes
so many arguments. -/
def bodies (d : Nat) (v : Value) (vs : List Value) (st : Store) : List Point :=
  match d, v with
  | d + 1, .function c =>
    if vs.length = c.params.length then
      [⟨d, st.scopes.size, .stmts .null c.body,
        (st.enclose c.scope).2.bindAll st.scopes.size (c.params.zip vs)⟩]
    else []
  | _, _ => []

/-- What is evaluated in a call of `quote`: what it hands over, if it has one argument. -/
def quoted (d : Nat) (s : ScopeId) (args : List Expr) (st : Store) : List Point :=
  match args with
  | [e] => [⟨d, s, .splices e.handedOver, st⟩]
  | _ => []

/-- What is evaluated in an expression that is handed over: its argument, if it is a call of
`unquote`. -/
def unquoted (d : Nat) (s : ScopeId) (h : Expr) (st : Store) : List Point :=
  match d, h.unquoted? with
  | d + 1, some arg => [⟨d, s, .expr arg, st⟩]
  | _, _ => []

/-- The parts of a point that are evaluated, in the order in which they are. -/
def parts : Point → List Point
  | ⟨d, s, .expr (.unary _ e), st⟩ => [⟨d, s, .expr e, st⟩]
  | ⟨d, s, .expr (.binary _ l r), st⟩ =>
    ⟨d, s, .expr l, st⟩ :: (l.eval d s st).next fun _ st₁ => [⟨d, s, .expr r, st₁⟩]
  | ⟨d, s, .expr (.cond c yes no), st⟩ =>
    ⟨d, s, .expr c, st⟩ :: (c.eval d s st).next fun t st₁ =>
      if t.truthy then [⟨d, s, .stmts .null yes, st₁⟩]
      else no.toList.map fun no => ⟨d, s, .stmts .null no, st₁⟩
  | ⟨d, s, .expr (.call f args), st⟩ =>
    if f.isQuoteName then quoted d s args st
    else ⟨d, s, .expr f, st⟩ :: (f.eval d s st).next fun v st₁ =>
      ⟨d, s, .exprs args, st₁⟩ :: (evalExprs (evalBlock d) s args st₁).next fun vs st₂ =>
        bodies d v vs st₂
  | ⟨d, s, .expr (.array items), st⟩ => [⟨d, s, .exprs items, st⟩]
  | ⟨d, s, .expr (.hash pairs), st⟩ => [⟨d, s, .entries [] pairs, st⟩]
  | ⟨d, s, .expr (.index b p), st⟩ =>
    ⟨d, s, .expr b, st⟩ :: (b.eval d s st).next fun _ st₁ => [⟨d, s, .expr p, st₁⟩]
  | ⟨d, s, .stmt (.letBind _ e), st⟩ => [⟨d, s, .expr e, st⟩]
  | ⟨d, s, .stmt (.ret (some e)), st⟩ => [⟨d, s, .expr e, st⟩]
  | ⟨d, s, .stmt (.expr e), st⟩ => [⟨d, s, .expr e, st⟩]
  | ⟨d, s, .stmts _ (stmt :: rest), st⟩ =>
    ⟨d, s, .stmt stmt, st⟩ :: (stmt.eval d s st).next fun v st₁ =>
      if v.isReturned then [] else [⟨d, s, .stmts v rest, st₁⟩]
  | ⟨d, s, .exprs (e :: es), st⟩ =>
    ⟨d, s, .expr e, st⟩ :: (e.eval d s st).next fun _ st₁ => [⟨d, s, .exprs es, st₁⟩]
  | ⟨d, s, .entries before ((k, e) :: rest), st⟩ =>
    ⟨d, s, .expr k, st⟩ :: (k.eval d s st).next fun v st₁ =>
      match v.key? with
      | none => []
      | some key => ⟨d, s, .expr e, st₁⟩ :: (e.eval d s st₁).next fun w st₂ =>
        [⟨d, s, .entries (Assoc.put key w before) rest, st₂⟩]
  | ⟨d, s, .splices (h :: hs), st⟩ =>
    unquoted d s h st ++
      (spliceWith (evalBlock d) s h st).next fun _ st₁ => [⟨d, s, .splices hs, st₁⟩]
  | _ => []

section

variable {P Q : Point} {d : Nat} {s : ScopeId} {st : Store}

/-- A part of a point is among its parts in order. -/
lemma Part.mem_parts (h : P.Part Q) : Q ∈ P.parts := by
  rcases h with h | h
  · cases h with
    | unary | left | test | base | letBind | ret | item | key => simp [parts]
    | right hl => simp [parts, hl]
    | callee hf => simp [parts, hf]
    | position hb => simp [parts, hb]
    | value hk hkey => simp [parts, hk, hkey]
    | unquoted harg => simp [parts, unquoted, harg]
  · cases h with
    | items | pairs | expr | first => simp [parts]
    | yes hc ht => simp [parts, hc, ht]
    | no hc ht => simp [parts, hc, ht]
    | quoted hf => simp [parts, quoted, hf]
    | args hquote hf => simp [parts, hquote, hf]
    | body hquote hf hargs hlen => simp [parts, hquote, hf, hargs, bodies, hlen]
    | next hs hv => simp [parts, hs, hv]
    | restExprs he => simp [parts, he]
    | restEntries hk hkey he => simp [parts, hk, hkey, he]
    | restSplices hh => simp [parts, hh]

/-- What is evaluated in a choice is a part of it. -/
lemma part_of_mem_cond {c : Expr} {yes : List Stmt} {no : Option (List Stmt)}
    (h : Q ∈ parts ⟨d, s, .expr (.cond c yes no), st⟩) :
    Part ⟨d, s, .expr (.cond c yes no), st⟩ Q := by
  rw [parts, Outcome.mem_cons_next] at h
  rcases h with rfl | ⟨t, st₁, hc, h⟩
  · exact .inl .test
  · split at h
    · rename_i ht
      obtain rfl := List.mem_singleton.mp h
      exact .inr (.yes hc ht)
    · rename_i ht
      obtain ⟨no, hno, rfl⟩ := List.mem_map.mp h
      obtain rfl := Option.mem_toList.mp hno
      exact .inr (.no hc (by simpa using ht))

/-- What is evaluated in a call is a part of it. -/
lemma part_of_mem_call {f : Expr} {args : List Expr}
    (h : Q ∈ parts ⟨d, s, .expr (.call f args), st⟩) :
    Part ⟨d, s, .expr (.call f args), st⟩ Q := by
  rw [parts] at h
  cases hquote : f.isQuoteName with
  | true =>
    rw [if_pos hquote] at h
    unfold quoted at h
    split at h
    · obtain rfl := List.mem_singleton.mp h
      exact .inr (.quoted hquote)
    · cases h
  | false =>
    rw [if_neg (by simp [hquote]), Outcome.mem_cons_next] at h
    rcases h with rfl | ⟨v, st₁, hf, h⟩
    · exact .inl (.callee hquote)
    rw [Outcome.mem_cons_next] at h
    rcases h with rfl | ⟨vs, st₂, hargs, h⟩
    · exact .inr (.args hquote hf)
    unfold bodies at h
    split at h
    · split at h
      · rename_i hlen
        obtain rfl := List.mem_singleton.mp h
        exact .inr (.body hquote hf hargs hlen)
      · cases h
    · cases h

/-- What is evaluated in the entries of a hash is a part of them. -/
lemma part_of_mem_entries {before : List (Key × Value)} {k e : Expr}
    {rest : List (Expr × Expr)} (h : Q ∈ parts ⟨d, s, .entries before ((k, e) :: rest), st⟩) :
    Part ⟨d, s, .entries before ((k, e) :: rest), st⟩ Q := by
  rw [parts, Outcome.mem_cons_next] at h
  rcases h with rfl | ⟨v, st₁, hk, h⟩
  · exact .inl .key
  split at h
  · cases h
  · rename_i key hkey
    rw [Outcome.mem_cons_next] at h
    rcases h with rfl | ⟨w, st₂, he, h⟩
    · exact .inl (.value hk hkey)
    · obtain rfl := List.mem_singleton.mp h
      exact .inr (.restEntries hk hkey he)

/-- What is evaluated in a quotation is a part of it. -/
lemma part_of_mem_splices {e : Expr} {hs : List Expr}
    (h : Q ∈ parts ⟨d, s, .splices (e :: hs), st⟩) : Part ⟨d, s, .splices (e :: hs), st⟩ Q := by
  rw [parts, List.mem_append, Outcome.mem_next] at h
  rcases h with h | ⟨a, st₁, ha, h⟩
  · unfold unquoted at h
    split at h
    · rename_i harg
      obtain rfl := List.mem_singleton.mp h
      exact .inl (.unquoted harg)
    · cases h
  · obtain rfl := List.mem_singleton.mp h
    exact .inr (.restSplices ha)

/-- What is evaluated in an expression is a part of it. -/
lemma part_of_mem_expr {e : Expr} (h : Q ∈ parts ⟨d, s, .expr e, st⟩) :
    Part ⟨d, s, .expr e, st⟩ Q := by
  cases e with
  | ident | int | bool | str | fnLit | macroLit => cases h
  | unary =>
    obtain rfl := List.mem_singleton.mp h
    exact .inl .unary
  | binary =>
    rcases Outcome.mem_cons_next.mp h with rfl | ⟨v, st₁, hl, h⟩
    · exact .inl .left
    · obtain rfl := List.mem_singleton.mp h
      exact .inl (.right hl)
  | cond => exact part_of_mem_cond h
  | call => exact part_of_mem_call h
  | array =>
    obtain rfl := List.mem_singleton.mp h
    exact .inr .items
  | hash =>
    obtain rfl := List.mem_singleton.mp h
    exact .inr .pairs
  | index =>
    rcases Outcome.mem_cons_next.mp h with rfl | ⟨v, st₁, hb, h⟩
    · exact .inl .base
    · obtain rfl := List.mem_singleton.mp h
      exact .inl (.position hb)

/-- The part of a statement in order is the expression that it evaluates. -/
lemma parts_stmt (stmt : Stmt) :
    parts ⟨d, s, .stmt stmt, st⟩ = stmt.value?.toList.map fun e => ⟨d, s, .expr e, st⟩ := by
  cases stmt with
  | letBind => rfl
  | ret value => cases value <;> rfl
  | expr => rfl

/-- What is evaluated in a statement is a part of it. -/
lemma part_of_mem_stmt {stmt : Stmt} (h : Q ∈ parts ⟨d, s, .stmt stmt, st⟩) :
    Part ⟨d, s, .stmt stmt, st⟩ Q := by
  rw [parts_stmt] at h
  obtain ⟨e, he, rfl⟩ := List.mem_map.mp h
  exact part_stmt_iff.mpr ⟨e, Option.mem_toList.mp he, rfl⟩

/-- What is evaluated in some statements is a part of them. -/
lemma part_of_mem_stmts {before : Value} {stmt : Stmt} {rest : List Stmt}
    (h : Q ∈ parts ⟨d, s, .stmts before (stmt :: rest), st⟩) :
    Part ⟨d, s, .stmts before (stmt :: rest), st⟩ Q := by
  rcases Outcome.mem_cons_next.mp h with rfl | ⟨v, st₁, hs, h⟩
  · exact .inr .first
  · split at h
    · cases h
    · rename_i hv
      obtain rfl := List.mem_singleton.mp h
      exact .inr (.next hs (by simpa using hv))

/-- **The parts in order** are the parts of a point, and no others. -/
theorem mem_parts : Q ∈ P.parts ↔ P.Part Q := by
  refine ⟨fun h => ?_, Part.mem_parts⟩
  obtain ⟨d, s, node, st⟩ := P
  cases node with
  | expr e => exact part_of_mem_expr h
  | stmt stmt => exact part_of_mem_stmt h
  | stmts before ss =>
    cases ss with
    | nil => cases h
    | cons stmt rest => exact part_of_mem_stmts h
  | exprs es =>
    cases es with
    | nil => cases h
    | cons e es =>
      rcases Outcome.mem_cons_next.mp h with rfl | ⟨v, st₁, he, h⟩
      · exact .inl .item
      · obtain rfl := List.mem_singleton.mp h
        exact .inr (.restExprs he)
  | entries before rest =>
    cases rest with
    | nil => cases h
    | cons pair rest => exact part_of_mem_entries h
  | splices hs =>
    cases hs with
    | nil => cases h
    | cons e hs => exact part_of_mem_splices h

end

/-! ## Ends -/

/-- How the evaluation at a point ends. -/
def outcome (P : Point) : Outcome Fault P.node.Result :=
  P.node.eval P.depth P.scope P.store

section

variable {P Q : Point} {d : Nat} {s : ScopeId} {st st' : Store} {f : Fault}

/-- A fault of an expression is the fault of the `unquote` whose argument it is. -/
lemma splice_of_fault {h arg : Expr} (harg : h.unquoted? = some arg)
    (hfault : arg.eval d s st = .fault f st') :
    spliceWith (evalBlock (d + 1)) s h st = .fault f st' := by
  unfold spliceWith
  rw [harg]
  refine bind_of_fault ?_
  rw [evalBlock, evalStmts_expr]
  exact hfault

/-- A fault of an operand is the fault of the whole. -/
lemma Operand.outcome_of_fault (h : P.Operand Q) (hfault : Q.outcome = .fault f st') :
    P.outcome = .fault f st' := by
  cases h with
  | unary | left | base =>
    change Expr.evalWith _ _ _ _ = _
    rw [Expr.evalWith]
    exact bind_of_fault hfault
  | test =>
    rename_i no _
    change Expr.evalWith _ _ _ _ = _
    cases no <;>
    · rw [Expr.evalWith]
      exact bind_of_fault hfault
  | right hl =>
    change Expr.evalWith _ _ _ _ = _
    rw [Expr.evalWith]
    exact (bind_of_ok hl).trans (bind_of_fault hfault)
  | callee hf =>
    change Expr.evalWith _ _ _ _ = _
    rw [Expr.evalWith, if_neg (by simp [hf])]
    exact bind_of_fault hfault
  | position hb =>
    change Expr.evalWith _ _ _ _ = _
    rw [Expr.evalWith]
    exact (bind_of_ok hb).trans (bind_of_fault hfault)
  | letBind | ret =>
    change Stmt.evalWith _ _ _ _ = _
    rw [Stmt.evalWith]
    exact bind_of_fault hfault
  | item =>
    change evalExprs _ _ _ _ = _
    rw [evalExprs]
    exact bind_of_fault hfault
  | key =>
    change evalEntries _ _ _ _ _ = _
    rw [evalEntries]
    exact bind_of_fault hfault
  | value hk hkey =>
    change evalEntries _ _ _ _ _ = _
    rw [evalEntries]
    refine (bind_of_ok hk).trans ?_
    rw [hkey]
    exact bind_of_fault hfault
  | unquoted harg =>
    change List.mapM (m := Run Fault) _ _ _ = _
    rw [List.mapM_cons]
    exact bind_of_fault (splice_of_fault harg hfault)

/-- A fault of another part is the fault of the whole. -/
lemma Inner.outcome_of_fault (h : P.Inner Q) (hfault : Q.outcome = .fault f st') :
    P.outcome = .fault f st' := by
  cases h with
  | yes hc ht =>
    rename_i no _ _ _
    change Expr.evalWith _ _ _ _ = _
    cases no <;>
    · rw [Expr.evalWith]
      refine (bind_of_ok hc).trans ?_
      rw [if_pos ht]
      exact hfault
  | no hc ht =>
    change Expr.evalWith _ _ _ _ = _
    rw [Expr.evalWith]
    refine (bind_of_ok hc).trans ?_
    rw [if_neg (by simp [ht])]
    exact hfault
  | quoted hf =>
    change Expr.evalWith _ _ _ _ = _
    rw [Expr.evalWith, if_pos hf, quoteCallWith, quoteWith, Expr.replaceM_eq, bind_assoc]
    exact bind_of_fault hfault
  | args hquote hf =>
    change Expr.evalWith _ _ _ _ = _
    rw [Expr.evalWith, if_neg (by simp [hquote])]
    exact (bind_of_ok hf).trans (bind_of_fault hfault)
  | body hquote hf hargs hlen =>
    change Expr.evalWith _ _ _ _ = _
    rw [Expr.evalWith, if_neg (by simp [hquote])]
    refine (bind_of_ok hf).trans ((bind_of_ok hargs).trans ?_)
    exact (applyWith_function hlen).trans (bind_of_fault hfault)
  | items | pairs =>
    change Expr.evalWith _ _ _ _ = _
    rw [Expr.evalWith]
    exact bind_of_fault hfault
  | expr =>
    change Stmt.evalWith _ _ _ _ = _
    rw [Stmt.evalWith]
    exact hfault
  | first =>
    change evalStmts _ _ _ _ _ = _
    rw [evalStmts]
    exact bind_of_fault hfault
  | next hs hv =>
    change evalStmts _ _ _ _ _ = _
    rw [evalStmts]
    refine (bind_of_ok hs).trans ?_
    rw [if_neg (by simp [hv])]
    exact hfault
  | restExprs he =>
    change evalExprs _ _ _ _ = _
    rw [evalExprs]
    exact (bind_of_ok he).trans (bind_of_fault hfault)
  | restEntries hk hkey he =>
    change evalEntries _ _ _ _ _ = _
    rw [evalEntries]
    refine (bind_of_ok hk).trans ?_
    rw [hkey]
    exact (bind_of_ok he).trans hfault
  | restSplices hh =>
    change List.mapM (m := Run Fault) _ _ _ = _
    rw [List.mapM_cons]
    exact (bind_of_ok hh).trans (bind_of_fault hfault)

/-- **A fault of a part** is the fault of the whole. -/
theorem Part.outcome_of_fault (h : P.Part Q) (hfault : Q.outcome = .fault f st') :
    P.outcome = .fault f st' :=
  h.elim (fun h => h.outcome_of_fault hfault) fun h => h.outcome_of_fault hfault

/-- **Nothing comes after a fault**: a part that ends with a fault is the last. -/
theorem Part.getLast?_of_fault (h : P.Part Q) (hfault : Q.outcome = .fault f st') :
    P.parts.getLast? = some Q := by
  rcases h with h | h
  · cases h with
    | unary | letBind | ret => rfl
    | left | test | base | item | key => exact Outcome.getLast?_cons_next hfault _
    | right hl => simp [parts, hl]
    | position hb => simp [parts, hb]
    | callee hf =>
      rw [parts, if_neg (by simp [hf])]
      exact Outcome.getLast?_cons_next hfault _
    | value hk hkey =>
      simp only [parts, hk, hkey, Outcome.next_ok, List.getLast?_cons_cons]
      exact Outcome.getLast?_cons_next hfault _
    | unquoted harg => simp [parts, unquoted, harg, splice_of_fault harg hfault]
  · cases h with
    | items | pairs | expr => rfl
    | first => exact Outcome.getLast?_cons_next hfault _
    | yes hc ht => simp [parts, hc, ht]
    | no hc ht => simp [parts, hc, ht]
    | quoted hf => simp [parts, quoted, hf]
    | args hquote hf =>
      rw [parts, if_neg (by simp [hquote]), hf, Outcome.next_ok, List.getLast?_cons_cons]
      exact Outcome.getLast?_cons_next hfault _
    | body hquote hf hargs hlen => simp [parts, hquote, hf, hargs, bodies, hlen]
    | next hs hv => simp [parts, hs, hv]
    | restExprs he => simp [parts, he]
    | restEntries hk hkey he => simp [parts, hk, hkey, he]
    | restSplices hh => simp [parts, hh]

end

/-- An evaluation **ends in** another one: it comes to that, and to nothing after it. -/
def EndsIn : Point → Point → Prop :=
  Relation.ReflTransGen fun P Q => P.parts.getLast? = some Q

/-- **The first fault**: if an evaluation comes to one that ends with a fault, it ends there, with
that fault and the same store.

**Proof sketch.** Induction on the parts that lead there, from the last to the first. -/
theorem Reaches.of_fault {P Q : Point} {f : Fault} {st' : Store} (hreach : P.Reaches Q)
    (hfault : Q.outcome = .fault f st') : P.outcome = .fault f st' ∧ P.EndsIn Q := by
  induction hreach using Relation.ReflTransGen.head_induction_on with
  | refl => exact ⟨hfault, .refl⟩
  | head hpart _ ih =>
    exact ⟨hpart.outcome_of_fault ih.1, .head (hpart.getLast?_of_fault ih.1) ih.2⟩

end Point

end QuoteLang
