import QuoteLang.Proofs.WellFormed

set_option relaxedAutoImplicit false
set_option autoImplicit false

/-!
# Growth of well-formed stores

Evaluation turns a well-formed store into a well-formed store in which no scope is lost, and its
value fits that store. This holds of whole evaluations that come to an end, and also in the middle
of those that do not: wherever something is about to be evaluated, the store is well-formed and the
scope has been made.

## Main definitions

* `Store.GrowsTo` — a store becomes a well-formed one, and no scope is lost.
* `Run.Grows` — a run keeps a store well-formed, and its value fits.
* `Point.ClosedAfter` — an evaluation begins in a well-formed store and a scope that has been made.

## Main results

* `Store.WellFormed.bind`, `Store.WellFormed.newScope` — what is done to a store keeps it
  well-formed.
* `Tree.eval_grows`, `Expr.quote_grows`, `Value.apply_grows` — what evaluation does to a store.
* `Point.Part.closedAfter`, `Point.Reaches.closedAfter` — the evaluations that are reached are
  closed.
-/

namespace QuoteLang

open Run

/-! ## Values that fit -/

/-- What fits a store fits every store with at least as many scopes. -/
lemma Value.Fits.mono {st st' : Store} {v : Value} (h : v.Fits st)
    (hle : st.scopes.size ≤ st'.scopes.size) : v.Fits st' where
  lt_size hi := Nat.lt_of_lt_of_le (h.lt_size hi) hle
  nodup := h.nodup

/-- A store becomes one that is well-formed, and no scope is lost. -/
structure Store.GrowsTo (st st' : Store) : Prop where
  /-- The store after it is well-formed. -/
  wellFormed : st'.WellFormed
  /-- No scope is lost. -/
  size_le : st.scopes.size ≤ st'.scopes.size

namespace Store.WellFormed

variable {st : Store} (hst : st.WellFormed)

include hst

/-- What is alike to something, where every scope corresponds to itself, fits the store. -/
lemma fits_of_alike {v w : Value} (h : v.Alike st.identity w) : v.Fits st :=
  Value.Alike.fits (T := .ofExtends hst (.refl st)) h

/-- An array fits if its items do. -/
lemma fits_array {items : List Value} (h : ∀ v ∈ items, v.Fits st) :
    (Value.array items).Fits st :=
  hst.fits_of_alike (Value.alike_array_iff.mpr (alike_of_forall_fits h))

/-- A hash without entries fits. -/
lemma fits_hash_nil : (Value.hash []).Fits st :=
  hst.fits_of_alike (Value.alike_hash_iff.mpr ⟨List.nodup_nil, .nil⟩)

/-- A hash fits after a value that fits has been put in. -/
lemma fits_put {entries : List (Key × Value)} (h : (Value.hash entries).Fits st) (key : Key)
    {v : Value} (hv : v.Fits st) : (Value.hash (Assoc.put key v entries)).Fits st := by
  obtain ⟨hnodup, hentries⟩ := Value.alike_hash_iff.mp h.alike
  have hput := Value.alike_hash_iff.mpr
    ⟨Assoc.nodup_keys_put key v hnodup, hentries.put key hv.alike⟩
  exact hst.fits_of_alike hput

/-- A function fits if its scope has been made. -/
lemma fits_function {c : Closure} (hc : c.scope < st.scopes.size) : (Value.function c).Fits st :=
  hst.fits_of_alike (.function (d := c) ⟨rfl, rfl, ⟨rfl, hc⟩, fun _ => rfl⟩)

/-- A macro fits if its scope has been made. -/
lemma fits_macroFn {c : Closure} (hc : c.scope < st.scopes.size) : (Value.macroFn c).Fits st :=
  hst.fits_of_alike (.macroFn (d := c) ⟨rfl, rfl, ⟨rfl, hc⟩, fun _ => rfl⟩)

/-- A value on its way out fits if what it wraps does. -/
lemma fits_returned {v : Value} (hv : v.Fits st) : (Value.returned v).Fits st :=
  hst.fits_of_alike (.returned hv.alike)

/-- What is found under a name fits. -/
lemma fits_lookup {scope : ScopeId} {name : String} {v : Value}
    (hv : st.lookup scope name = some v) : v.Fits st :=
  hst.fits.lookup hv

/-- What can be seen from a scope fits. -/
lemma fits_visible {scope : ScopeId} (hscope : scope < st.scopes.size)
    {p : String × Value} (hp : p ∈ st.visible scope) : p.2.Fits st := by
  have hscopes := Twin.scopes_ofExtends hst (.refl st) hscope
  have hself := (Twin.ofExtends hst (.refl st)).visible hscopes
  exact hst.fits_of_alike (List.forall₂_same.mp hself p hp).2

end Store.WellFormed

/-! ## Stores -/

/-- Growing is transitive. -/
lemma Store.GrowsTo.trans {st st' st'' : Store} (h : st.GrowsTo st') (h' : st'.GrowsTo st'') :
    st.GrowsTo st'' :=
  ⟨h'.wellFormed, Nat.le_trans h.size_le h'.size_le⟩

/-- A store grows to one in which outer scopes are older, no scope is lost, and all that is bound
fits already. -/
lemma Store.GrowsTo.of_all {st st' : Store} (hsize : st.scopes.size ≤ st'.scopes.size)
    (houter : ∀ (i : ScopeId) (s : Scope) (o : ScopeId), st'.scopes[i]? = some s →
      s.outer = some o → o < i)
    (hall : st'.All (Value.Fits st)) : st.GrowsTo st' where
  wellFormed :=
    ⟨fun hs ho => houter _ _ _ hs ho, fun i s hs p hp => (hall i s hs p hp).mono hsize⟩
  size_le := hsize

namespace Store.WellFormed

variable {st : Store} (hst : st.WellFormed)

include hst

/-- A store grows to every store with the same scopes. -/
lemma of_scopes_eq {st' : Store} (heq : st'.scopes = st.scopes) : st.GrowsTo st' := by
  refine .of_all (Nat.le_of_eq (heq ▸ rfl)) (fun i s o hs => ?_) (hst.fits.of_scopes_eq heq)
  rw [heq] at hs
  exact hst.outer_lt hs

/-- A store stays well-formed when a value that fits is bound. -/
theorem bind (scope : ScopeId) (name : String) {v : Value} (hv : v.Fits st) :
    st.GrowsTo (st.bind scope name v) := by
  refine .of_all (by simp [Store.bind]) (fun i s o hs ho => ?_) (hst.fits.bind scope name hv)
  simp only [Store.bind, Array.getElem?_modify] at hs
  split at hs
  · obtain ⟨s', hs', rfl⟩ := Option.map_eq_some_iff.mp hs
    exact hst.outer_lt hs' ho
  · exact hst.outer_lt hs ho

/-- A store stays well-formed when several values that fit are bound. -/
lemma bindAll (scope : ScopeId) {pairs : List (String × Value)}
    (hpairs : ∀ p ∈ pairs, p.2.Fits st) : st.GrowsTo (st.bindAll scope pairs) := by
  induction pairs generalizing st with
  | nil => exact ⟨hst, Nat.le_refl _⟩
  | cons p pairs ih =>
    rw [List.forall_mem_cons] at hpairs
    have hfirst := hst.bind scope p.1 hpairs.1
    exact hfirst.trans (ih hfirst.wellFormed fun q hq => (hpairs.2 q hq).mono hfirst.size_le)

/-- A store stays well-formed when a scope is made inside one that has been made, or inside none. -/
theorem newScope {outer : Option ScopeId} (ho : ∀ o ∈ outer, o < st.scopes.size) :
    st.GrowsTo (st.newScope outer).2 := by
  refine .of_all (by simp [Store.newScope]) (fun i s o hs hso => ?_) (hst.fits.newScope outer)
  simp only [Store.newScope, Array.getElem?_push] at hs
  split at hs
  · rename_i hi
    cases hs
    exact hi ▸ ho o hso
  · exact hst.outer_lt hs hso

end Store.WellFormed

/-! ## Runs -/

/-- A run, started in a store, **grows** it: it leaves a store that the first grows to, and a value
that fits there. -/
def Run.Grows (st : Store) (x : Run Fault Value) : Prop :=
  x.Ensures st (fun v st' => st.GrowsTo st' ∧ v.Fits st') st.GrowsTo

/-- **A run that follows itself grows a well-formed store**, however it ends. -/
theorem Run.Follows.growsTo {ε α β : Type} {st : Store} (hst : st.WellFormed)
    {R : Pairing → α → β → Prop} {x : Run ε α} {y : Run ε β}
    (h : Follows (.ofExtends hst (.refl st)) R x y) :
    x.Ensures st (fun _ st' => st.GrowsTo st') st.GrowsTo :=
  (h.wellFormed hst).mono (fun _ _ h => ⟨h.1, h.2⟩) fun _ h => ⟨h.1, h.2⟩

/-- A run that follows itself grows a well-formed store, and its result has every property that what
is related has. -/
lemma Run.Follows.growsTo_with {ε α β : Type} {st : Store} (hst : st.WellFormed)
    {R : Pairing → α → β → Prop} {x : Run ε α} {y : Run ε β} {Q : Store → α → Prop}
    (h : Follows (.ofExtends hst (.refl st)) R x y)
    (hR : ∀ (T : Twin) a b, R T.toPairing a b → Q T.left a) :
    x.Ensures st (fun a st' => st.GrowsTo st' ∧ Q st' a) st.GrowsTo := by
  refine .intro (fun a st' hx => ?_) fun e st' hx => (h.growsTo hst).of_fault hx
  have hgrows := (h.growsTo hst).of_ok hx
  obtain ⟨T, b, -, rfl, -, hab⟩ := h.of_ok hx
  exact ⟨hgrows, hR T a b hab⟩

/-- A run whose values are alike grows a well-formed store. -/
lemma Run.Follows.grows {st : Store} (hst : st.WellFormed) {x y : Run Fault Value}
    (h : Follows (.ofExtends hst (.refl st)) Value.Alike x y) : x.Grows st :=
  h.growsTo_with hst fun _ _ _ => Value.Alike.fits

/-- What goes alike in scopes that correspond grows a well-formed store. -/
lemma GoAlike.grows {st : Store} (hst : st.WellFormed) {x y : ScopeId → Run Fault Value}
    (h : GoAlike x y) {scope : ScopeId} (hscope : scope < st.scopes.size) : (x scope).Grows st :=
  (h _ _ _ (Twin.scopes_ofExtends hst (.refl st) hscope)).grows hst

/-- What a run that grows a store ends with, where a fault is an error. -/
lemma Run.Grows.of_value? {st st' : Store} {x : Run Fault Value} {v : Value} (h : x.Grows st)
    (hv : (x st).value? = some (v, st')) : st.GrowsTo st' ∧ v.Fits st' := by
  rcases Ensures.of_value? h hv with hok | ⟨herror, hgrows⟩
  · exact hok
  · refine ⟨hgrows, ?_⟩
    cases v with
    | error message => exact hgrows.wellFormed.fits_of_alike (.error message)
    | _ => cases herror

section

variable {st : Store} (hst : st.WellFormed) {scope : ScopeId} (hscope : scope < st.scopes.size)
  (depth : Nat)

include hst

/-- Calls of what fits with arguments that fit. -/
theorem Value.apply_grows {f : Value} {args : List Value} (hf : f.Fits st)
    (hargs : ∀ v ∈ args, v.Fits st) : (f.apply depth args).Grows st :=
  Follows.grows hst
    (Value.apply_follows (Nat.le_refl depth) hf.alike (Store.alike_of_forall_fits hargs))

include hscope

/-- Expressions. -/
lemma Expr.eval_grows (e : Expr) : (e.eval depth scope).Grows st :=
  ((evalWith_follows (evalBlock_follows (Nat.le_refl depth))).1 e).grows hst hscope

/-- Statements. -/
lemma Stmt.eval_grows (s : Stmt) : (s.eval depth scope).Grows st :=
  ((evalWith_follows (evalBlock_follows (Nat.le_refl depth))).2 s).grows hst hscope

/-- **Evaluation grows a well-formed store**, whatever is evaluated. -/
theorem Tree.eval_grows (t : Tree) : (t.eval depth scope).Grows st := by
  have hscopes := Twin.scopes_ofExtends hst (.refl st) hscope
  cases t with
  | program p => exact Follows.grows hst (Program.eval_follows (Nat.le_refl depth) hscopes p)
  | block b =>
    exact Follows.grows hst (evalStmts_evalBlock_follows (Nat.le_refl depth) hscopes .null b)
  | stmt s => exact s.eval_grows hst hscope depth
  | expr e => exact e.eval_grows hst hscope depth

/-- Quotations. -/
theorem Expr.quote_grows (e : Expr) : (e.quote depth scope).Grows st :=
  Follows.grows hst (quoteCallWith_follows (evalBlock_follows (Nat.le_refl depth))
    (Twin.scopes_ofExtends hst (.refl st) hscope) [e])

/-- Lists of expressions. -/
lemma evalExprs_grows (es : List Expr) : (evalExprs (evalBlock depth) scope es).Ensures st
    (fun vs st' => st.GrowsTo st' ∧ ∀ v ∈ vs, v.Fits st') st.GrowsTo := by
  have heach : ∀ e ∈ es, GoAlike (fun i => e.evalWith (evalBlock depth) i) fun j =>
      e.evalWith (evalBlock depth) j :=
    fun e _ => (evalWith_follows (evalBlock_follows (Nat.le_refl depth))).1 e
  have hself := evalExprs_follows heach (Twin.scopes_ofExtends hst (.refl st) hscope)
  refine hself.growsTo_with hst fun T vs ws h v hv => ?_
  obtain ⟨hlength, halike⟩ := List.forall₂_iff_zip.mp h
  obtain ⟨w, hp⟩ := exists_mem_zip hlength hv
  exact (halike hp).fits

/-- What stands for an expression in a quotation. -/
lemma spliceWith_grows (e : Expr) : (spliceWith (evalBlock depth) scope e).Ensures st
    (fun _ st' => st.GrowsTo st') st.GrowsTo :=
  Follows.growsTo hst (spliceWith_follows (evalBlock_follows (Nat.le_refl depth))
    (Twin.scopes_ofExtends hst (.refl st) hscope) e)

/-- The definition of the macros of a program. -/
lemma Program.defineMacros_grows {ε : Type} (program : Program) :
    (program.defineMacros scope : Run ε Program).Ensures st (fun _ st' => st.GrowsTo st')
      st.GrowsTo :=
  Follows.growsTo hst (Program.defineMacros_follows
    (Twin.scopes_ofExtends hst (.refl st) hscope) program)

/-- The expansion of an expression. -/
lemma expandAt_grows (e : Expr) : (expandAt depth scope e).Ensures st
    (fun _ st' => st.GrowsTo st') st.GrowsTo :=
  Follows.growsTo hst (expandAt_follows (Nat.le_refl depth)
    (Twin.scopes_ofExtends hst (.refl st) hscope) e)

/-- The expansion of a program. -/
lemma Program.expandMacros_grows (program : Program) :
    (program.expandMacros depth scope).Ensures st (fun _ st' => st.GrowsTo st') st.GrowsTo :=
  Follows.growsTo hst (Program.expandMacros_follows (Nat.le_refl depth)
    (Twin.scopes_ofExtends hst (.refl st) hscope) program)

/-- The expansion of a program, with the definition of its macros. -/
lemma Session.expand_grows (program : Program) : (Session.expand depth scope program).Ensures st
    (fun _ st' => st.GrowsTo st') st.GrowsTo :=
  Follows.growsTo hst (Session.expand_follows (Nat.le_refl depth)
    (Twin.scopes_ofExtends hst (.refl st) hscope) program)

end

/-! ## Points -/

/-- The values that a node comes with fit a store. -/
def Node.Fits (st : Store) : Node → Prop
  | stmts before _ => before.Fits st
  | entries before _ => (Value.hash before).Fits st
  | expr _ | stmt _ | exprs _ | splices _ => True

namespace Point

/-- A point is **closed** if its store is well-formed, its scope has been made, and the values that
it comes with fit. It comes after a store if no scope of that is lost. -/
structure ClosedAfter (start : Store) (P : Point) : Prop where
  /-- The store is well-formed. -/
  store : P.store.WellFormed
  /-- The scope has been made. -/
  scope_lt : P.scope < P.store.scopes.size
  /-- The values fit. -/
  node : P.node.Fits P.store
  /-- No scope is lost. -/
  size_le : start.scopes.size ≤ P.store.scopes.size

/-- What comes after a store comes after every store with fewer scopes. -/
lemma ClosedAfter.of_size_le {start start' : Store} {P : Point} (h : P.ClosedAfter start)
    (hle : start'.scopes.size ≤ start.scopes.size) : P.ClosedAfter start' :=
  ⟨h.store, h.scope_lt, h.node, Nat.le_trans hle h.size_le⟩

/-- What comes with the same scope after a closed point, in a store that its store grows to, is
closed. -/
lemma ClosedAfter.of_growsTo {start : Store} {P Q : Point} (h : P.ClosedAfter start)
    (hstore : P.store.GrowsTo Q.store) (hscope : Q.scope = P.scope)
    (hnode : Q.node.Fits Q.store) : Q.ClosedAfter start :=
  ⟨hstore.wellFormed, hscope ▸ Nat.lt_of_lt_of_le h.scope_lt hstore.size_le, hnode,
    Nat.le_trans h.size_le hstore.size_le⟩

/-- The body of a function is closed if the scope of the function has been made and the arguments
fit. -/
lemma closedAfter_body {st : Store} (hst : st.WellFormed) {c : Closure}
    (hc : c.scope < st.scopes.size) {args : List Value} (hargs : ∀ v ∈ args, v.Fits st)
    (depth : Nat) : ClosedAfter st ⟨depth, st.scopes.size, .stmts .null c.body,
      (st.enclose c.scope).2.bindAll st.scopes.size (c.params.zip args)⟩ := by
  have hmade : st.GrowsTo (st.enclose c.scope).2 := hst.newScope (by simpa using hc)
  have hsize : (st.enclose c.scope).2.scopes.size = st.scopes.size + 1 := by
    simp [Store.enclose, Store.newScope]
  have hpairs : ∀ p ∈ c.params.zip args, p.2.Fits (st.enclose c.scope).2 := fun p hp =>
    (hargs p.2 (List.of_mem_zip hp).2).mono hmade.size_le
  have hbound := hmade.wellFormed.bindAll st.scopes.size hpairs
  have hlt : st.scopes.size < (st.enclose c.scope).2.scopes.size := by omega
  exact ⟨hbound.wellFormed, Nat.lt_of_lt_of_le hlt hbound.size_le,
    hbound.wellFormed.fits_of_alike .null, (hmade.trans hbound).size_le⟩

section

variable {start : Store}

/-- An expression that is evaluated where a closed point is grows its store, and its value fits. -/
lemma ClosedAfter.expr {d : Nat} {s : ScopeId} {n : Node} {st st' : Store} {e : Expr} {v : Value}
    (h : ClosedAfter start ⟨d, s, n, st⟩) (he : e.eval d s st = .ok v st') :
    st.GrowsTo st' ∧ v.Fits st' :=
  (e.eval_grows h.store h.scope_lt d).of_ok he

/-- The operands of a closed point are closed. -/
lemma Operand.closedAfter {P Q : Point} (hPQ : P.Operand Q) (h : P.ClosedAfter start) :
    Q.ClosedAfter start := by
  have hself : P.store.GrowsTo P.store := h.store.of_scopes_eq rfl
  cases hPQ with
  | unary | left | test | callee | base | letBind | ret | item | key | unquoted =>
    exact h.of_growsTo hself rfl trivial
  | right he | position he => exact h.of_growsTo (h.expr he).1 rfl trivial
  | value he _ => exact h.of_growsTo (h.expr he).1 rfl trivial

/-- The other parts of a closed point are closed. -/
lemma Inner.closedAfter {P Q : Point} (hPQ : P.Inner Q) (h : P.ClosedAfter start) :
    Q.ClosedAfter start := by
  have hself : P.store.GrowsTo P.store := h.store.of_scopes_eq rfl
  have hnull {st : Store} (hst : st.WellFormed) : Value.null.Fits st := hst.fits_of_alike .null
  cases hPQ with
  | yes he _ | no he _ =>
    obtain ⟨hgrows, -⟩ := h.expr he
    exact h.of_growsTo hgrows rfl (hnull hgrows.wellFormed)
  | quoted | items | expr => exact h.of_growsTo hself rfl trivial
  | pairs => exact h.of_growsTo hself rfl h.store.fits_hash_nil
  | args _ he | restExprs he => exact h.of_growsTo (h.expr he).1 rfl trivial
  | body _ hf hargs _ =>
    obtain ⟨hgrows, hc⟩ := h.expr hf
    have hscope := Nat.lt_of_lt_of_le h.scope_lt hgrows.size_le
    obtain ⟨hgrows', hargs⟩ :=
      (evalExprs_grows hgrows.wellFormed hscope _ _).of_ok hargs
    have hle := Nat.le_trans h.size_le (hgrows.trans hgrows').size_le
    refine (closedAfter_body hgrows'.wellFormed ?_ hargs _).of_size_le hle
    exact (hc.mono hgrows'.size_le).lt_size ⟨_, .inl (.self _), rfl⟩
  | first => exact h.of_growsTo hself rfl trivial
  | next hs _ =>
    obtain ⟨hgrows, hv⟩ := (Stmt.eval_grows h.store h.scope_lt _ _).of_ok hs
    exact h.of_growsTo hgrows rfl hv
  | @restEntries d s before k e rest st st₁ st₂ v w key hk _ he =>
    obtain ⟨hgrows, -⟩ := h.expr hk
    have hbefore : (Value.hash before).Fits st := h.node
    have hnext : ClosedAfter start ⟨d, s, .entries before rest, st₁⟩ :=
      h.of_growsTo hgrows rfl (hbefore.mono hgrows.size_le)
    obtain ⟨hgrows', hv⟩ := hnext.expr he
    refine hnext.of_growsTo hgrows' rfl ?_
    exact hgrows'.wellFormed.fits_put (hbefore.mono (hgrows.trans hgrows').size_le) key hv
  | restSplices hh =>
    exact h.of_growsTo ((spliceWith_grows h.store h.scope_lt _ _).of_ok hh) rfl trivial

/-- **Every part of a closed point is closed.** -/
theorem Part.closedAfter {P Q : Point} (hPQ : P.Part Q) (h : P.ClosedAfter start) :
    Q.ClosedAfter start :=
  hPQ.elim (·.closedAfter h) (·.closedAfter h)

/-- **Every point that is reached from a closed point is closed.** -/
theorem Reaches.closedAfter {P Q : Point} (hPQ : P.Reaches Q) (h : P.ClosedAfter start) :
    Q.ClosedAfter start := by
  induction hPQ with
  | refl => exact h
  | tail _ hpart ih => exact hpart.closedAfter ih

end

end Point

/-- The bodies of macros that an expansion begins are closed. -/
lemma Expands.closedAfter {macros : ScopeId} {depth : Nat} {es : List Expr} {st : Store}
    {P : Point} (h : Expands macros depth es st P) (hst : st.WellFormed)
    (hmacros : macros < st.scopes.size) : P.ClosedAfter st := by
  induction h with
  | body hc _ =>
    have hfits := hst.fits_lookup hc
    refine Point.closedAfter_body hst (hfits.lt_size ⟨_, .inr (.self _), rfl⟩) (fun v hv => ?_) _
    obtain ⟨e, -, rfl⟩ := List.mem_map.mp hv
    exact hst.fits_of_alike (.quote e)
  | next ha _ ih =>
    have hgrows := (expandAt_grows hst hmacros _ _).of_ok ha
    have hlt := Nat.lt_of_lt_of_le hmacros hgrows.size_le
    exact (ih hgrows.wellFormed hlt).of_size_le hgrows.size_le

end QuoteLang
