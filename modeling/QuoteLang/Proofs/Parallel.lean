import QuoteLang.Proofs.Replace
import QuoteLang.Proofs.Twins
import QuoteLang.Session

set_option relaxedAutoImplicit false
set_option autoImplicit false

/-!
# Evaluation in twin stores

The same is evaluated in both stores of a twin, in scopes that correspond. Then both evaluations go
alike: they end in the same way, with values that are alike and after the same text, and again in
stores that are twins. So what an evaluation does depends on what can be reached from its scope, and
on nothing else that is in the store.

On the right side calls may be nested more deeply. That is all that is needed to see that a larger
depth changes nothing about evaluations that are not too deep.

## Main definitions

* `Run.Follows` — one run does in the right store of a twin what another does in the left store.
* `GoAlike` — what is evaluated in scopes that correspond goes alike.

## Main results

* `Run.Follows.bind` — runs in sequence follow one another.
* `applyWith_follows` — calls of functions that are alike.
* `evalBlock_follows` — the evaluation of a block in scopes that correspond.
* `Program.expandMacros_follows`, `Session.expand_follows` — the expansion of a program with macro
  scopes that correspond.
-/

namespace QuoteLang

/-! ## Runs that follow one another -/

/-- One run, started in the right store of a twin, **follows** another that is started in the left
store: if the other ends with a value, it ends with one that is related, and if the other ends with
a fault, it ends with the same fault; in stores that are twins again. Nothing is said where the
other run is too deep. -/
def Run.Follows {ε α β : Type} (T : Twin) (R : Pairing → α → β → Prop) (x : Run ε α)
    (y : Run ε β) : Prop :=
  match x T.left with
  | .ok a st => ∃ (T' : Twin) (b : β), T.Leads T' ∧ T'.left = st ∧
      y T.right = .ok b T'.right ∧ R T'.toPairing a b
  | .fault e st => ∃ T' : Twin, T.Leads T' ∧ T'.left = st ∧ y T.right = .fault e T'.right
  | .tooDeep => True

/-- What is evaluated in a scope **goes alike** on both sides: in scopes that correspond, the one
follows the other. -/
def GoAlike (x y : ScopeId → Run Fault Value) : Prop :=
  ∀ (T : Twin) (i j : ScopeId), T.scopes i j → Run.Follows T Value.Alike (x i) (y j)

namespace Run.Follows

variable {ε δ α β α' β' : Type} {T : Twin} {R : Pairing → α → β → Prop}
  {S : Pairing → α' → β' → Prop} {x : Run ε α} {y : Run ε β}

/-- What follows a run that ends with a value. -/
lemma of_ok (h : Follows T R x y) {a : α} {st : Store} (hx : x T.left = .ok a st) :
    ∃ (T' : Twin) (b : β), T.Leads T' ∧ T'.left = st ∧ y T.right = .ok b T'.right ∧
      R T'.toPairing a b := by
  rw [Follows, hx] at h
  exact h

/-- What follows a run that ends with a fault. -/
lemma of_fault (h : Follows T R x y) {e : ε} {st : Store} (hx : x T.left = .fault e st) :
    ∃ T' : Twin, T.Leads T' ∧ T'.left = st ∧ y T.right = .fault e T'.right := by
  rw [Follows, hx] at h
  exact h

/-- Runs follow one another if they do however the first ends. -/
lemma intro (hok : ∀ a st, x T.left = .ok a st → ∃ (T' : Twin) (b : β), T.Leads T' ∧
      T'.left = st ∧ y T.right = .ok b T'.right ∧ R T'.toPairing a b)
    (hfault : ∀ e st, x T.left = .fault e st → ∃ T' : Twin, T.Leads T' ∧ T'.left = st ∧
      y T.right = .fault e T'.right) : Follows T R x y := by
  rw [Follows]
  cases hx : x T.left with
  | ok a st => exact hok a st hx
  | fault e st => exact hfault e st hx
  | tooDeep => trivial

/-- Runs that end with values that are related follow one another. -/
lemma step {T' : Twin} {a : α} {b : β} (hT : T.Leads T') (hx : x T.left = .ok a T'.left)
    (hy : y T.right = .ok b T'.right) (hab : R T'.toPairing a b) : Follows T R x y := by
  rw [Follows, hx]
  exact ⟨T', b, hT, rfl, hy, hab⟩

/-- Runs that change nothing follow one another if their values are related. -/
lemma pure {a : α} {b : β} (h : R T.toPairing a b) :
    Follows T R (Pure.pure a : Run ε α) (Pure.pure b) :=
  step (.refl T) rfl rfl h

/-- The same faults follow one another. -/
lemma raise (e : ε) : Follows T R (Run.raise e : Run ε α) (Run.raise e) :=
  ⟨T, .refl T, rfl, rfl⟩

/-- **Runs in sequence** follow one another if the first runs do, and the second ones after them. -/
theorem bind {f : α → Run ε α'} {g : β → Run ε β'} (h : Follows T R x y)
    (hfg : ∀ T' a b, T.Leads T' → R T'.toPairing a b → Follows T' S (f a) (g b)) :
    Follows T S (x >>= f) (y >>= g) := by
  refine intro (fun a' st hok => ?_) fun e st hfault => ?_
  · obtain ⟨a, st₁, hx, hf⟩ := bind_eq_ok.mp hok
    obtain ⟨T₁, b, hT₁, rfl, hy, hab⟩ := h.of_ok hx
    obtain ⟨T₂, b', hT₂, rfl, hg, hab'⟩ := (hfg T₁ a b hT₁ hab).of_ok hf
    exact ⟨T₂, b', hT₁.trans hT₂, rfl, bind_eq_ok.mpr ⟨b, T₁.right, hy, hg⟩, hab'⟩
  · rcases bind_eq_fault.mp hfault with hx | ⟨a, st₁, hx, hf⟩
    · obtain ⟨T₁, hT₁, rfl, hy⟩ := h.of_fault hx
      exact ⟨T₁, hT₁, rfl, bind_eq_fault.mpr (.inl hy)⟩
    · obtain ⟨T₁, b, hT₁, rfl, hy, hab⟩ := h.of_ok hx
      obtain ⟨T₂, hT₂, rfl, hg⟩ := (hfg T₁ a b hT₁ hab).of_fault hf
      exact ⟨T₂, hT₁.trans hT₂, rfl, bind_eq_fault.mpr (.inr ⟨b, T₁.right, hy, hg⟩)⟩

/-- Calling functions along a list, if each call follows the other. -/
lemma mapM {γ : Type} {f g : γ → Run ε α} {cs : List γ}
    (h : ∀ c ∈ cs, ∀ T', T.Leads T' → Follows T' (fun _ => Eq) (f c) (g c)) :
    Follows T (fun _ => Eq) (cs.mapM f) (cs.mapM g) := by
  induction cs generalizing T with
  | nil =>
    rw [List.mapM_nil, List.mapM_nil]
    exact pure rfl
  | cons c cs ih =>
    rw [List.forall_mem_cons] at h
    rw [List.mapM_cons, List.mapM_cons]
    refine bind (h.1 T (.refl T)) ?_
    rintro T₁ a _ hT₁ rfl
    refine bind (ih fun c hc T' hT' => h.2 c hc T' (hT₁.trans hT')) ?_
    rintro T₂ as _ - rfl
    exact pure rfl

/-- Going on after a fault: the faults are the same, and the values are related. -/
lemma attempt (h : Follows T R x y) :
    Follows T (fun M r r' => (∃ e, r = .error e ∧ r' = .error e) ∨
        ∃ a b, r = .ok a ∧ r' = .ok b ∧ R M a b)
      (Run.attempt x : Run δ (Except ε α)) (Run.attempt y) := by
  refine intro (fun r st hr => ?_) fun e st hr => ?_
  · cases hx : x T.left with
    | ok a st' =>
      obtain ⟨T', b, hT', rfl, hy, hab⟩ := h.of_ok hx
      rw [Run.attempt, hx] at hr
      cases hr
      exact ⟨T', .ok b, hT', rfl, by rw [Run.attempt, hy], .inr ⟨a, b, rfl, rfl, hab⟩⟩
    | fault e st' =>
      obtain ⟨T', hT', rfl, hy⟩ := h.of_fault hx
      rw [Run.attempt, hx] at hr
      cases hr
      exact ⟨T', .error e, hT', rfl, by rw [Run.attempt, hy], .inl ⟨e, rfl, rfl⟩⟩
    | tooDeep =>
      rw [Run.attempt, hx] at hr
      cases hr
  · rw [Run.attempt] at hr
    split at hr <;> cases hr

/-- What follows a run, where a fault is an error: the values are alike. -/
lemma of_value? {x y : Run Fault Value} (h : Follows T Value.Alike x y) {v : Value} {st : Store}
    (hx : (x T.left).value? = some (v, st)) : ∃ (T' : Twin) (w : Value), T.Leads T' ∧
      T'.left = st ∧ (y T.right).value? = some (w, T'.right) ∧ v.Alike T'.toPairing w := by
  cases hrun : x T.left with
  | ok u st₁ =>
    rw [hrun] at hx
    cases hx
    obtain ⟨T', w, hT', rfl, hy, hvw⟩ := h.of_ok hrun
    exact ⟨T', w, hT', rfl, by rw [hy, Outcome.value?], hvw⟩
  | fault f st₁ =>
    rw [hrun] at hx
    cases hx
    obtain ⟨T', hT', rfl, hy⟩ := h.of_fault hrun
    exact ⟨T', .error f.message, hT', rfl, by rw [hy, Outcome.value?], .error _⟩
  | tooDeep =>
    rw [hrun] at hx
    cases hx

/-- Settling on values that are alike. -/
lemma settle {v w : Value} (h : v.Alike T.toPairing w) :
    Follows T Value.Alike (Run.settle v) (Run.settle w) := by
  have hself := h
  cases h with
  | error message => exact raise _
  | _ => exact pure hself

end Run.Follows

open Run

variable {T : Twin} {i j : ScopeId}

/-! ## Operators, indexing and names -/

/-- An operator before its operand yields the same for operands that are alike. -/
lemma UnaryOp.apply_congr (op : UnaryOp) {M : Pairing} {v w : Value} (h : v.Alike M w) :
    op.apply v = op.apply w := by
  cases h <;> cases op <;> rfl

/-- An operator before its operand. -/
lemma UnaryOp.apply_follows (op : UnaryOp) {v w : Value} (h : v.Alike T.toPairing w) :
    Follows T Value.Alike (op.apply v) (op.apply w) := by
  rw [← op.apply_congr h, UnaryOp.apply.eq_def]
  split
  · exact .pure (.bool _)
  · exact .pure (.bool _)
  · exact .pure (.bool _)
  · exact .pure (.int _)
  · exact .raise _

/-- An operator does not take operands one of which is no integer, truth value or string. -/
lemma BinaryOp.apply_of_key?_eq_none (op : BinaryOp) {l r : Value}
    (h : l.key? = none ∨ r.key? = none) :
    op.apply l r = if l.type = r.type then Run.raise (.operator op l.type)
      else Run.raise (.mismatch op l.type r.type) := by
  unfold BinaryOp.apply
  split <;> first | rfl | simp [Value.key?] at h

/-- An operator between its operands yields the same for operands that are alike. -/
lemma BinaryOp.apply_congr (op : BinaryOp) {M : Pairing} {l l' r r' : Value}
    (hl : l.Alike M l') (hr : r.Alike M r') : op.apply l r = op.apply l' r' := by
  by_cases hkey : l.key? = none ∨ r.key? = none
  · rw [op.apply_of_key?_eq_none hkey, op.apply_of_key?_eq_none (hl.key?_eq ▸ hr.key?_eq ▸ hkey),
      hl.type_eq, hr.type_eq]
  · rw [not_or, ← ne_eq, ← ne_eq, Option.ne_none_iff_exists', Option.ne_none_iff_exists'] at hkey
    obtain ⟨⟨k, hk⟩, ⟨k', hk'⟩⟩ := hkey
    have hl := Value.key?_eq_some.mp (hl.key?_eq.symm.trans hk)
    have hr := Value.key?_eq_some.mp (hr.key?_eq.symm.trans hk')
    rw [Value.key?_eq_some.mp hk, Value.key?_eq_some.mp hk', hl, hr]

/-- An operator between integers. -/
lemma BinaryOp.applyInt_follows (op : BinaryOp) (l r : Int64) :
    Follows T Value.Alike (op.applyInt l r) (op.applyInt l r) := by
  cases op
  case add | sub | mul => exact .pure (.int _)
  case lt | gt | eq | ne => exact .pure (.bool _)
  case div =>
    rw [BinaryOp.applyInt]
    split
    · exact .raise _
    · exact .pure (.int _)

/-- An operator between its operands. -/
lemma BinaryOp.apply_follows (op : BinaryOp) {l l' r r' : Value} (hl : l.Alike T.toPairing l')
    (hr : r.Alike T.toPairing r') : Follows T Value.Alike (op.apply l r) (op.apply l' r') := by
  rw [← op.apply_congr hl hr, BinaryOp.apply.eq_def]
  split
  · exact BinaryOp.applyInt_follows _ _ _
  · exact .pure (.bool _)
  · exact .pure (.bool _)
  · exact .pure (.str _)
  · split
    · exact .raise _
    · exact .raise _

/-- What is found at a place that may be missing. -/
lemma Value.Alike.getD {M : Pairing} {o o' : Option Value} (h : Option.Rel (Value.Alike M) o o') :
    (o.getD .null).Alike M (o'.getD .null) := by
  cases h with
  | none => exact .null
  | some h => exact h

/-- What is at a place of lists that are alike. -/
lemma rel_getElem? {M : Pairing} {vs ws : List Value} (h : List.Forall₂ (Value.Alike M) vs ws)
    (n : Nat) : Option.Rel (Value.Alike M) vs[n]? ws[n]? := by
  induction h generalizing n with
  | nil => exact .none
  | cons hv _ ih =>
    cases n with
    | zero => exact .some hv
    | succ n => exact ih n

/-- Indexing into what is alike with what is alike. -/
lemma indexInto_follows {b b' p p' : Value} (hb : b.Alike T.toPairing b')
    (hp : p.Alike T.toPairing p') : Follows T Value.Alike (indexInto b p) (indexInto b' p') := by
  have hb' := hb
  cases hb with
  | @array vs ws =>
    cases hp with
    | int place =>
      refine .settle ?_
      unfold itemAt
      split
      · exact .null
      · exact .getD (rel_getElem? (Value.alike_array_iff.mp hb') _)
    | _ => exact .raise _
  | @hash ps qs =>
    unfold indexInto
    dsimp only
    rw [← hp.key?_eq, ← hp.type_eq]
    split
    · rename_i key _
      exact .settle (.getD ((Value.alike_hash_iff.mp hb').2.lookup key))
    · exact .raise _
  | _ => exact .raise _

/-- The value of a name in scopes that correspond. -/
lemma nameValue_follows (hij : T.scopes i j) (name : String) :
    Follows T Value.Alike (nameValue i name) (nameValue j name) := by
  unfold nameValue
  refine .bind (R := fun M => Option.Rel (Value.Alike M))
    (.step (.refl T) rfl rfl (T.lookup hij name)) fun T' o o' _ ho => ?_
  cases ho with
  | some h => exact .settle h
  | none =>
    dsimp only
    split
    · exact .pure (.builtin _)
    · exact .raise _

/-- The syntax that stands for values that are alike is the same. -/
lemma toSyntax_follows {v w : Value} (h : v.Alike T.toPairing w) :
    Follows T (fun _ => Eq) (toSyntax v) (toSyntax w) := by
  cases h
  case int | bool | str | quote => exact .pure rfl
  all_goals exact .raise _

/-! ## Built-in functions -/

/-- The items of arguments that are alike. -/
lemma Builtin.itemsOf_follows (b : Builtin) {v w : Value} (h : v.Alike T.toPairing w) :
    Follows T (fun M => List.Forall₂ (Value.Alike M)) (b.itemsOf v) (b.itemsOf w) := by
  have hself := h
  cases h with
  | array => exact .pure (Value.alike_array_iff.mp hself)
  | _ => exact .raise _

/-- The length of arguments that are alike is the same. -/
lemma Builtin.lengthOf_follows {v w : Value} (h : v.Alike T.toPairing w) :
    Follows T Value.Alike (Builtin.lengthOf v) (Builtin.lengthOf w) := by
  cases h with
  | str s => exact .pure (.int _)
  | array hlen _ =>
    rw [Builtin.lengthOf, Builtin.lengthOf, hlen]
    exact .pure (.int _)
  | _ => exact .raise _

/-- The first items of lists that are alike. -/
lemma rel_head? {M : Pairing} {vs ws : List Value} (h : List.Forall₂ (Value.Alike M) vs ws) :
    Option.Rel (Value.Alike M) vs.head? ws.head? := by
  rw [List.head?_eq_getElem?, List.head?_eq_getElem?]
  exact rel_getElem? h 0

/-- The last items of lists that are alike. -/
lemma rel_getLast? {M : Pairing} {vs ws : List Value} (h : List.Forall₂ (Value.Alike M) vs ws) :
    Option.Rel (Value.Alike M) vs.getLast? ws.getLast? := by
  rw [List.getLast?_eq_getElem?, List.getLast?_eq_getElem?, h.length_eq]
  exact rel_getElem? h _

/-- Lists that are related have a single member each, if one of them has. -/
lemma exists_of_length_eq_one {α β : Type} {R : α → β → Prop} {as : List α} {bs : List β}
    (h : List.Forall₂ R as bs) (hlen : as.length = 1) : ∃ a b, as = [a] ∧ bs = [b] ∧ R a b := by
  obtain ⟨a, rfl⟩ := List.length_eq_one_iff.mp hlen
  obtain _ | ⟨hab, _ | _⟩ := h
  exact ⟨a, _, rfl, rfl, hab⟩

/-- A built-in function, called with arguments that are alike. What `puts` writes is the same. -/
lemma Builtin.call_follows (b : Builtin) {vs ws : List Value}
    (h : List.Forall₂ (Value.Alike T.toPairing) vs ws) :
    Follows T Value.Alike (b.call vs) (b.call ws) := by
  by_cases hlen : vs.length = b.arity
  case neg =>
    rw [call_of_length_ne hlen, call_of_length_ne (h.length_eq ▸ hlen), h.length_eq]
    exact .raise _
  cases b
  case len =>
    obtain ⟨v, w, rfl, rfl, hv⟩ := exists_of_length_eq_one h hlen
    exact Builtin.lengthOf_follows hv
  case first =>
    obtain ⟨v, w, rfl, rfl, hv⟩ := exists_of_length_eq_one h hlen
    refine .bind (Builtin.itemsOf_follows .first hv) fun T' items items' _ hitems => .pure ?_
    exact .getD (rel_head? hitems)
  case last =>
    obtain ⟨v, w, rfl, rfl, hv⟩ := exists_of_length_eq_one h hlen
    refine .bind (Builtin.itemsOf_follows .last hv) fun T' items items' _ hitems => .pure ?_
    exact .getD (rel_getLast? hitems)
  case rest =>
    obtain ⟨v, w, rfl, rfl, hv⟩ := exists_of_length_eq_one h hlen
    refine .bind (Builtin.itemsOf_follows .rest hv) fun T' items items' _ hitems => .pure ?_
    exact Value.alike_array_iff.mpr (List.forall₂_drop 1 hitems)
  case push =>
    obtain ⟨v, item, rfl⟩ := List.length_eq_two.mp hlen
    obtain _ | ⟨hv, _ | ⟨hitem, _ | _⟩⟩ := h
    refine .bind (Builtin.itemsOf_follows .push hv) fun T' items items' hT' hitems => .pure ?_
    have hitem := hitem.mono hT'.continues
    exact Value.alike_array_iff.mpr (List.rel_append hitems (.cons hitem .nil))
  case puts =>
    obtain ⟨v, w, rfl, rfl, hv⟩ := exists_of_length_eq_one h hlen
    refine .bind (R := fun _ _ _ => True) ?_ fun _ _ _ _ _ => .pure .null
    rw [← hv.render_eq]
    exact .step (a := ()) (b := ()) (.write T v.render) rfl rfl trivial

section

variable {deeper deeper' : Deeper}

/-! ## Lists -/

/-- Statements, if each of them follows itself. -/
lemma evalStmts_follows {ss : List Stmt}
    (hss : ∀ s ∈ ss, GoAlike (fun i => s.evalWith deeper i) fun j => s.evalWith deeper' j)
    (hij : T.scopes i j) {before before' : Value} (hbefore : before.Alike T.toPairing before') :
    Follows T Value.Alike (evalStmts deeper i before ss) (evalStmts deeper' j before' ss) := by
  induction ss generalizing T before before' with
  | nil =>
    rw [evalStmts, evalStmts]
    exact .pure hbefore
  | cons s ss ih =>
    rw [List.forall_mem_cons] at hss
    rw [evalStmts_cons, evalStmts_cons]
    refine .bind (hss.1 T i j hij) fun T' v w hT' hvw => ?_
    rw [← hvw.isReturned_eq]
    split
    · exact .pure hvw
    · exact ih hss.2 (hT'.scopes hij) hvw

/-- Expressions of a list, if each of them follows itself. -/
lemma evalExprs_follows {es : List Expr}
    (hes : ∀ e ∈ es, GoAlike (fun i => e.evalWith deeper i) fun j => e.evalWith deeper' j)
    (hij : T.scopes i j) :
    Follows T (fun M => List.Forall₂ (Value.Alike M)) (evalExprs deeper i es)
      (evalExprs deeper' j es) := by
  induction es generalizing T with
  | nil =>
    rw [evalExprs, evalExprs]
    exact .pure .nil
  | cons e es ih =>
    rw [List.forall_mem_cons] at hes
    rw [evalExprs, evalExprs]
    refine .bind (hes.1 T i j hij) fun T₁ v w hT₁ hvw => ?_
    refine .bind (ih hes.2 (hT₁.scopes hij)) fun T₂ vs ws hT₂ hrest => ?_
    exact .pure (.cons (hvw.mono hT₂.continues) hrest)

/-- Entries, if each key and each value follows itself. -/
lemma evalEntries_follows {pairs : List (Expr × Expr)}
    (hpairs : ∀ p ∈ pairs,
      (GoAlike (fun i => p.1.evalWith deeper i) fun j => p.1.evalWith deeper' j) ∧
        GoAlike (fun i => p.2.evalWith deeper i) fun j => p.2.evalWith deeper' j)
    (hij : T.scopes i j) {ps qs : List (Key × Value)}
    (hps : (Value.hash ps).Alike T.toPairing (.hash qs)) :
    Follows T (fun M ps qs => (Value.hash ps).Alike M (.hash qs)) (evalEntries deeper i ps pairs)
      (evalEntries deeper' j qs pairs) := by
  induction pairs generalizing T ps qs with
  | nil =>
    rw [evalEntries, evalEntries]
    exact .pure hps
  | cons p pairs ih =>
    obtain ⟨k, e⟩ := p
    rw [List.forall_mem_cons] at hpairs
    rw [evalEntries, evalEntries]
    refine .bind (hpairs.1.1 T i j hij) fun T₁ v w hT₁ hvw => ?_
    rw [← hvw.key?_eq, ← hvw.type_eq]
    split
    · exact .raise _
    · rename_i key _
      refine .bind (hpairs.1.2 T₁ i j (hT₁.scopes hij)) fun T₂ v w hT₂ hvw => ?_
      obtain ⟨hnodup, hps⟩ := Value.alike_hash_iff.mp (hps.mono (hT₁.trans hT₂).continues)
      exact ih hpairs.2 ((hT₁.trans hT₂).scopes hij)
        (Value.alike_hash_iff.mpr ⟨Assoc.nodup_keys_put key v hnodup, hps.put key hvw⟩)

/-! ## Calls and quotations -/

/-- Functions that are made in scopes that correspond are alike. -/
lemma newClosure_follows {ε : Type} (hij : T.scopes i j) (params : List String) (body : Block) :
    Follows T Closure.Alike (Run.make (·.newClosure params body i) : Run ε Closure)
      (Run.make (·.newClosure params body j)) :=
  .step (.newClosure T params body i j) rfl rfl
    ⟨rfl, rfl, hij, fun hid => absurd hid (Nat.not_lt_of_le T.shared_le)⟩

/-- Names that are bound in scopes that correspond, to values that are alike. -/
lemma bind_follows {ε : Type} (hij : T.scopes i j) (name : String) {v w : Value}
    (hvw : v.Alike T.toPairing w) :
    Follows T (fun M _ _ => v.Alike M w) (Run.update (·.bind i name v) : Run ε Unit)
      (Run.update (·.bind j name w)) :=
  .step (.bind hij name hvw) rfl rfl hvw

variable (hdeeper : ∀ block, GoAlike (deeper block) (deeper' block))

include hdeeper

/-- The body of functions that are alike, with parameters bound to values that are alike. -/
lemma bodyValue_follows {c d : Closure} (hcd : c.Alike T.toPairing d) {vs ws : List Value}
    (h : List.Forall₂ (Value.Alike T.toPairing) vs ws) :
    Follows T Value.Alike (bodyValue deeper c vs) (bodyValue deeper' d ws) := by
  unfold bodyValue
  rw [hcd.params, hcd.body]
  refine .bind (R := fun M i j => M.scopes i j)
    (.step (.enclose hcd.scope) rfl rfl (.inr ⟨rfl, rfl⟩)) fun T₁ i j hT₁ hij => ?_
  refine .bind (R := fun M _ _ => M.scopes i j) ?_ fun T₂ _ _ _ hij => ?_
  · have hpairs := (EntriesAlike.of_values d.params h).mono hT₁.continues
    obtain ⟨T₂, hT₂, hleft, hright⟩ := Twin.exists_bindAll hij hpairs
    refine .step (a := ()) (b := ()) hT₂ ?_ ?_ (hT₂.scopes hij)
    · rw [hleft]
      rfl
    · rw [hright]
      rfl
  · exact .bind (hdeeper _ T₂ i j hij) fun T₃ v w _ hvw => .settle hvw.unwrapReturn

/-- **Calls** of what is alike with arguments that are alike. -/
theorem applyWith_follows {f g : Value} (hfg : f.Alike T.toPairing g) {vs ws : List Value}
    (h : List.Forall₂ (Value.Alike T.toPairing) vs ws) :
    Follows T Value.Alike (applyWith deeper f vs) (applyWith deeper' g ws) := by
  cases hfg with
  | function hcd =>
    rw [applyWith, applyWith, h.length_eq, hcd.params]
    split
    · exact bodyValue_follows hdeeper hcd h
    · exact .raise _
  | builtin b => exact .bind (b.call_follows h) fun T' v w _ hvw => .settle hvw
  | _ => exact .raise _

/-- What stands for an expression in a quotation is the same. -/
lemma spliceWith_follows (hij : T.scopes i j) (e : Expr) :
    Follows T (fun _ => Eq) (spliceWith deeper i e) (spliceWith deeper' j e) := by
  unfold spliceWith
  split
  · exact .pure rfl
  · exact .bind (hdeeper _ T i j hij) fun T' v w _ hvw => toSyntax_follows hvw

/-- Quotations are the same. -/
lemma quoteCallWith_follows (hij : T.scopes i j) (args : List Expr) :
    Follows T Value.Alike (quoteCallWith deeper i args) (quoteCallWith deeper' j args) := by
  unfold quoteCallWith
  split
  · rw [quoteWith, quoteWith, Expr.replaceM_eq, Expr.replaceM_eq, bind_assoc, bind_assoc]
    refine .bind (.mapM fun e _ T' hT' => spliceWith_follows hdeeper (hT'.scopes hij) e) ?_
    rintro T' as _ - rfl
    exact .pure (.quote _)
  · exact .raise _

/-! ## Expressions and statements -/

/-- Every expression and every statement follows itself in scopes that correspond, if what lies
deeper does. -/
lemma evalWith_follows :
    (∀ e : Expr, GoAlike (fun i => e.evalWith deeper i) fun j => e.evalWith deeper' j) ∧
      ∀ s : Stmt, GoAlike (fun i => s.evalWith deeper i) fun j => s.evalWith deeper' j := by
  apply Expr.induction
  case ident =>
    intro name T i j hij
    simp only [Expr.evalWith]
    exact nameValue_follows hij name
  case int =>
    intro n T i j _
    simp only [Expr.evalWith]
    exact .pure (.int n)
  case bool =>
    intro b T i j _
    simp only [Expr.evalWith]
    exact .pure (.bool b)
  case str =>
    intro s T i j _
    simp only [Expr.evalWith]
    exact .pure (.str s)
  case unary =>
    intro op e ih T i j hij
    simp only [Expr.evalWith]
    exact .bind (ih T i j hij) fun T' v w _ hvw => op.apply_follows hvw
  case binary =>
    intro op l r ihl ihr T i j hij
    simp only [Expr.evalWith]
    refine .bind (ihl T i j hij) fun T₁ l l' hT₁ hl => ?_
    refine .bind (ihr T₁ i j (hT₁.scopes hij)) fun T₂ r r' hT₂ hr => ?_
    exact op.apply_follows (hl.mono hT₂.continues) hr
  case cond =>
    intro c yes no ihc ihyes ihno T i j hij
    cases no with
    | none =>
      simp only [Expr.evalWith]
      refine .bind (ihc T i j hij) fun T' t t' hT' ht => ?_
      rw [← ht.truthy_eq]
      split
      · exact evalStmts_follows ihyes (hT'.scopes hij) .null
      · exact .pure .null
    | some no =>
      simp only [Expr.evalWith]
      refine .bind (ihc T i j hij) fun T' t t' hT' ht => ?_
      rw [← ht.truthy_eq]
      split
      · exact evalStmts_follows ihyes (hT'.scopes hij) .null
      · exact evalStmts_follows (ihno no rfl) (hT'.scopes hij) .null
  case fnLit =>
    intro params body _ T i j hij
    simp only [Expr.evalWith]
    exact .bind (newClosure_follows hij params body) fun T' c d _ hcd => .pure (.function hcd)
  case macroLit =>
    intro params body _ T i j hij
    simp only [Expr.evalWith]
    exact .bind (newClosure_follows hij params body) fun T' c d _ hcd => .pure (.macroFn hcd)
  case call =>
    intro f args ihf ihargs T i j hij
    simp only [Expr.evalWith]
    split
    · exact quoteCallWith_follows hdeeper hij args
    · refine .bind (ihf T i j hij) fun T₁ f g hT₁ hfg => ?_
      refine .bind (evalExprs_follows ihargs (hT₁.scopes hij)) fun T₂ vs ws hT₂ h => ?_
      exact applyWith_follows hdeeper (hfg.mono hT₂.continues) h
  case array =>
    intro items ih T i j hij
    simp only [Expr.evalWith]
    refine .bind (evalExprs_follows ih hij) fun T' vs ws _ h => ?_
    exact .pure (Value.alike_array_iff.mpr h)
  case hash =>
    intro pairs ih T i j hij
    simp only [Expr.evalWith]
    have hempty : (Value.hash []).Alike T.toPairing (.hash []) :=
      Value.alike_hash_iff.mpr ⟨List.nodup_nil, .nil⟩
    exact .bind (evalEntries_follows ih hij hempty) fun T' ps qs _ h => .pure h
  case index =>
    intro b p ihb ihp T i j hij
    simp only [Expr.evalWith]
    refine .bind (ihb T i j hij) fun T₁ b b' hT₁ hb => ?_
    refine .bind (ihp T₁ i j (hT₁.scopes hij)) fun T₂ p p' hT₂ hp => ?_
    exact indexInto_follows (hb.mono hT₂.continues) hp
  case letBind =>
    intro name e ih T i j hij
    simp only [Stmt.evalWith]
    refine .bind (ih T i j hij) fun T₁ v w hT₁ hvw => ?_
    have hij := hT₁.scopes hij
    exact .bind (bind_follows hij name hvw) fun T₂ _ _ _ hvw => .pure hvw
  case ret =>
    intro value ih T i j hij
    cases value with
    | none =>
      simp only [Stmt.evalWith]
      exact .pure (.returned .null)
    | some e =>
      simp only [Stmt.evalWith]
      exact .bind (ih e rfl T i j hij) fun T' v w _ hvw => .pure (.returned hvw)
  case expr =>
    intro e ih T i j hij
    simp only [Stmt.evalWith]
    exact ih T i j hij

end

/-! ## Evaluation up to a depth -/

/-- **A block, evaluated in scopes that correspond**, does the same on both sides; on the right,
calls may be nested more deeply.

**Proof sketch.** Induction on the depth. What is one level deeper on the left is at least one level
deeper on the right. -/
theorem evalBlock_follows {d d' : Nat} (hd : d ≤ d') (block : Block) :
    GoAlike (evalBlock d block) (evalBlock d' block) := by
  intro T i j hij
  induction d generalizing d' block T i j with
  | zero => trivial
  | succ d ih =>
    obtain ⟨d', rfl⟩ : ∃ n, d' = n + 1 := ⟨d' - 1, by omega⟩
    have hdeeper (block : Block) : GoAlike (evalBlock d block) (evalBlock d' block) :=
      fun T i j hij => ih (by omega) block T i j hij
    exact evalStmts_follows (fun s _ => (evalWith_follows hdeeper).2 s) hij .null

/-- Calls of what is alike, with arguments that are alike. -/
lemma Value.apply_follows {d d' : Nat} (hd : d ≤ d') {f g : Value} (hfg : f.Alike T.toPairing g)
    {vs ws : List Value} (h : List.Forall₂ (Value.Alike T.toPairing) vs ws) :
    Follows T Value.Alike (f.apply d vs) (g.apply d' ws) :=
  applyWith_follows (evalBlock_follows hd) hfg h

/-- Statements, evaluated in scopes that correspond after values that are alike. -/
lemma evalStmts_evalBlock_follows {d d' : Nat} (hd : d ≤ d') (hij : T.scopes i j)
    {before before' : Value} (hbefore : before.Alike T.toPairing before') (ss : List Stmt) :
    Follows T Value.Alike (evalStmts (evalBlock d) i before ss)
      (evalStmts (evalBlock d') j before' ss) :=
  evalStmts_follows (fun s _ => (evalWith_follows (evalBlock_follows hd)).2 s) hij hbefore

/-- Programs, evaluated in scopes that correspond. -/
lemma Program.eval_follows {d d' : Nat} (hd : d ≤ d') (hij : T.scopes i j) (program : Program) :
    Follows T Value.Alike (program.eval d i) (program.eval d' j) :=
  .bind (evalStmts_evalBlock_follows hd hij .null program) fun _ _ _ _ hvw =>
    .settle hvw.unwrapReturn

/-! ## Expansion -/

/-- The expansion of a call of macros that are alike. -/
lemma expandCall_follows {d d' : Nat} (hd : d ≤ d') (name : String) {c c' : Closure}
    (hc : c.Alike T.toPairing c') (args : List Expr) :
    Follows T (fun _ => Eq) (expandCall d name c args) (expandCall d' name c' args) := by
  unfold expandCall
  rw [hc.params]
  split
  · have hargs : List.Forall₂ (Value.Alike T.toPairing) (args.map .quote) (args.map .quote) :=
      List.forall₂_same.mpr fun v hv => by
        obtain ⟨e, -, rfl⟩ := List.mem_map.mp hv
        exact .quote e
    refine .bind (.attempt (bodyValue_follows (evalBlock_follows hd) hc hargs)) ?_
    rintro T' r r' - (⟨f, rfl, rfl⟩ | ⟨v, w, rfl, rfl, hvw⟩)
    · exact .raise _
    · cases hvw with
      | quote e => exact .pure rfl
      | _ => exact .raise _
  · exact .raise _

/-- What stands for an expression after expansion is the same. -/
lemma expandAt_follows {d d' : Nat} (hd : d ≤ d') (hij : T.scopes i j) (e : Expr) :
    Follows T (fun _ => Eq) (expandAt d i e) (expandAt d' j e) := by
  unfold expandAt
  split
  · rename_i name args
    refine .bind (R := fun M => Option.Rel (Value.Alike M))
      (.step (.refl T) rfl rfl (T.lookup hij name)) fun T' o o' _ ho => ?_
    cases ho with
    | none => exact .pure rfl
    | some h =>
      cases h with
      | macroFn hc => exact expandCall_follows hd name hc args
      | _ => exact .pure rfl
  · exact .pure rfl

/-- **A program, expanded with macro scopes that correspond**, becomes the same. -/
theorem Program.expandMacros_follows {d d' : Nat} (hd : d ≤ d') (hij : T.scopes i j)
    (program : Program) :
    Follows T (fun _ => Eq) (program.expandMacros d i) (program.expandMacros d' j) := by
  rw [Program.expandMacros, Program.expandMacros, Block.replaceM_eq, Block.replaceM_eq]
  refine .bind (.mapM fun e _ T' hT' => expandAt_follows hd (hT'.scopes hij) e) ?_
  rintro T' as _ - rfl
  exact .pure rfl

/-- Defining macros in scopes that correspond leaves the same program. -/
lemma Program.defineMacros_follows {ε : Type} (hij : T.scopes i j) (program : Program) :
    Follows T (fun _ => Eq) (program.defineMacros i : Run ε Program) (program.defineMacros j) := by
  induction program generalizing T with
  | nil => exact .pure rfl
  | cons s rest ih =>
    unfold Program.defineMacros
    split
    case h_1 heq => cases heq
    case h_2 name params body rest' heq =>
      cases heq
      refine .bind (newClosure_follows hij params body) fun T₁ c d hT₁ hcd => ?_
      refine .bind (bind_follows (hT₁.scopes hij) name (.macroFn hcd)) fun T₂ _ _ hT₂ _ => ?_
      exact ih ((hT₁.trans hT₂).scopes hij)
    case h_3 heq =>
      cases heq
      refine .bind (ih hij) ?_
      rintro T₁ rest _ - rfl
      exact .pure rfl

/-- **The expansion of a program** with macro scopes that correspond: its macros are defined on both
sides, and it becomes the same. -/
theorem Session.expand_follows {d d' : Nat} (hd : d ≤ d') (hij : T.scopes i j) (program : Program) :
    Follows T (fun _ => Eq) (Session.expand d i program) (Session.expand d' j program) := by
  refine .bind (program.defineMacros_follows hij) ?_
  rintro T₁ program₁ _ hT₁ rfl
  exact program₁.expandMacros_follows hd (hT₁.scopes hij)

end QuoteLang
