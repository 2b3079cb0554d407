import QuoteLang.Proofs.Agreement

set_option relaxedAutoImplicit false
set_option autoImplicit false

/-!
# Evaluation in stores that agree

Evaluation of syntax that is made of a vocabulary does not tell stores apart that agree in it. What
it looks up are names of the vocabulary, and what it finds is clean: the bodies of functions are
again made of the vocabulary, and are evaluated in scopes that can be met.

## Main definitions

* `Outcome.Agrees` — two runs end in the same way, in stores that agree.
* `Run.Blind` — a run ends in the same way in all stores that agree.

## Main results

* `Run.Blind.bind` — runs in sequence are blind if each of them is.
* `applyWith_blind`, `quoteCallWith_blind` — calls of what is clean, and quotations.
* `evalBlock_blind`, `Tree.eval_blind` — evaluation is blind.
* `bodyValue_blind` — so are the bodies of clean functions and macros.
-/

namespace QuoteLang

/-! ## Runs -/

/-- Two outcomes **agree**: both are the same value, which has a property, or the same fault, with
stores that agree; or both are too deep, if that may be. -/
inductive Outcome.Agrees {ε α : Type} (V : Vocabulary) (I : ScopeId → Prop) (deep : Prop)
    (Q : α → Prop) : Outcome ε α → Outcome ε α → Prop
  /-- The same value. -/
  | ok {a : α} {st st' : Store} (h : st.Agrees V I st') (ha : Q a) :
      Agrees V I deep Q (.ok a st) (.ok a st')
  /-- The same fault. -/
  | fault {e : ε} {st st' : Store} (h : st.Agrees V I st') :
      Agrees V I deep Q (.fault e st) (.fault e st')
  /-- Both are too deep. -/
  | tooDeep (h : deep) : Agrees V I deep Q .tooDeep .tooDeep

/-- A run is **blind** to what a vocabulary leaves out: started in stores that agree, it ends in the
same way. -/
def Run.Blind {ε α : Type} (V : Vocabulary) (I : ScopeId → Prop) (deep : Prop) (Q : α → Prop)
    (x : Run ε α) : Prop :=
  ∀ st st', st.Agrees V I st' → (x st).Agrees V I deep Q (x st')

section

variable {V : Vocabulary} {I : ScopeId → Prop} {deep : Prop} {ε δ α β : Type} {Q : α → Prop}
  {R : β → Prop}

/-- What an outcome that agrees with another yields, where faults are errors. -/
lemma Outcome.Agrees.value? {Q : Value → Prop} {o o' : Outcome Fault Value}
    (h : o.Agrees V I deep Q o') :
    Option.Rel (fun p q => q.1 = p.1 ∧ p.2.Agrees V I q.2) o.value? o'.value? := by
  cases h with
  | ok h _ => exact .some ⟨rfl, h⟩
  | fault h => exact .some ⟨rfl, h⟩
  | tooDeep _ => exact .none

namespace Run.Blind

/-- What a blind run ensures in a store in which all that is bound is within the vocabulary, if that
has all names. -/
lemma ensures (hV : ∀ name, V.names name) {x : Run ε α} (h : Blind V (fun _ => True) deep Q x)
    {st : Store} (hst : st.All (Value.Within V)) :
    x.Ensures st (fun a st' => Q a ∧ st'.All (Value.Within V)) (Store.All (Value.Within V)) := by
  have hagrees := h st st hst.agrees
  refine .intro (fun a st' hx => ?_) fun e st' hx => ?_
  all_goals
    rw [hx] at hagrees
    cases hagrees
  · exact ⟨‹Q a›, Store.Agrees.all hV ‹_›⟩
  · exact Store.Agrees.all hV ‹_›

/-- A run that is blind, and never too deep in stores that agree, is never too deep. -/
lemma ne_tooDeep {x : Run ε α} (h : Blind .all (fun _ => True) False Q x) (st : Store) :
    x st ≠ .tooDeep := by
  intro hx
  have hst : st.All (Value.Within .all) := fun _ _ _ p _ => p.2.within_all
  have hagrees := h st st hst.agrees
  rw [hx] at hagrees
  cases hagrees
  assumption

/-- The run that changes nothing. -/
lemma pure {a : α} (ha : Q a) : Blind V I deep Q (Pure.pure a : Run ε α) :=
  fun _ _ h => .ok h ha

/-- A fault. -/
lemma raise (e : ε) : Blind V I deep Q (Run.raise e : Run ε α) :=
  fun _ _ h => .fault h

/-- Settling on a value. -/
lemma settle {Q : Value → Prop} {v : Value} (hv : Q v) : Blind V I deep Q (Run.settle v) := by
  cases v with
  | error message => exact raise _
  | _ => exact pure hv

/-- Asking for something in the store that is the same in stores that agree. -/
lemma get {f : Store → α} (h : ∀ st st', st.Agrees V I st' → f st' = f st ∧ Q (f st)) :
    Blind V I deep Q (Run.get f : Run ε α) := by
  intro st st' hst
  obtain ⟨heq, hQ⟩ := h st st' hst
  show Outcome.Agrees V I deep Q (.ok (f st) st) (.ok (f st') st')
  rw [heq]
  exact .ok hst hQ

/-- Making something that is the same in stores that agree. -/
lemma make {f : Store → α × Store} (h : ∀ st st', st.Agrees V I st' →
      (f st').1 = (f st).1 ∧ (f st).2.Agrees V I (f st').2 ∧ Q (f st).1) :
    Blind V I deep Q (Run.make f : Run ε α) := by
  intro st st' hst
  obtain ⟨heq, hafter, hQ⟩ := h st st' hst
  show Outcome.Agrees V I deep Q (.ok (f st).1 (f st).2) (.ok (f st').1 (f st').2)
  rw [heq]
  exact .ok hafter hQ

/-- Changing stores that agree to stores that agree. -/
lemma update {f : Store → Store} (h : ∀ st st', st.Agrees V I st' → (f st).Agrees V I (f st')) :
    Blind V I deep (fun _ => True) (Run.update f : Run ε Unit) :=
  fun _ _ hst => .ok (h _ _ hst) trivial

/-- **Runs in sequence** are blind if the first is, and the second after what the first ends
with. -/
theorem bind {x : Run ε α} {f : α → Run ε β} (hx : Blind V I deep Q x)
    (hf : ∀ a, Q a → Blind V I deep R (f a)) : Blind V I deep R (x >>= f) := by
  intro st st' hst
  change Outcome.Agrees V I deep R (Run.bind x f st) (Run.bind x f st')
  unfold Run.bind
  have hagrees := hx st st' hst
  generalize x st = o at hagrees ⊢
  generalize x st' = o' at hagrees ⊢
  cases hagrees with
  | ok h ha => exact hf _ ha _ _ h
  | fault h => exact .fault h
  | tooDeep h => exact .tooDeep h

/-- Calling a blind function along a list. -/
lemma mapM {γ : Type} {f : γ → Run ε α} {cs : List γ} (h : ∀ c ∈ cs, Blind V I deep Q (f c)) :
    Blind V I deep (fun as => ∀ a ∈ as, Q a) (cs.mapM f) := by
  induction cs with
  | nil => exact pure (List.forall_mem_nil _)
  | cons c cs ih =>
    rw [List.forall_mem_cons] at h
    rw [List.mapM_cons]
    refine bind h.1 fun a ha => bind (ih h.2) fun as has => pure ?_
    exact List.forall_mem_cons.mpr ⟨ha, has⟩

end Run.Blind

/-! ## Operators, indexing and names -/

open Run

/-- An operator before its operand. -/
lemma UnaryOp.apply_blind (op : UnaryOp) (v : Value) :
    Blind V I deep (Value.Clean V I) (op.apply v) := by
  unfold UnaryOp.apply
  split
  · exact .pure (Value.clean_bool _)
  · exact .pure (Value.clean_bool _)
  · exact .pure (Value.clean_bool _)
  · exact .pure (Value.clean_int _)
  · exact .raise _

/-- An operator between its operands. -/
lemma BinaryOp.apply_blind (op : BinaryOp) (l r : Value) :
    Blind V I deep (Value.Clean V I) (op.apply l r) := by
  have integers (op : BinaryOp) (m n : Int64) :
      Blind V I deep (Value.Clean V I) (op.applyInt m n) := by
    cases op
    case add | sub | mul => exact .pure (Value.clean_int _)
    case lt | gt | eq | ne => exact .pure (Value.clean_bool _)
    case div =>
      rw [BinaryOp.applyInt]
      split
      · exact .raise _
      · exact .pure (Value.clean_int _)
  unfold BinaryOp.apply
  split
  · exact integers _ _ _
  · exact .pure (Value.clean_bool _)
  · exact .pure (Value.clean_bool _)
  · exact .pure (Value.clean_str _)
  · split
    · exact .raise _
    · exact .raise _

/-- Indexing into what is clean. -/
lemma indexInto_blind {base : Value} (hbase : base.Clean V I) (position : Value) :
    Blind V I deep (Value.Clean V I) (indexInto base position) := by
  unfold indexInto
  split
  · refine .settle ?_
    unfold itemAt
    split
    · exact Value.clean_null
    · exact Value.clean_getD fun v hv =>
        Value.clean_array_iff.mp hbase v (List.mem_of_getElem? hv)
  · split
    · refine .settle (Value.clean_getD fun v hv => ?_)
      exact Value.clean_hash_iff.mp hbase _ (Assoc.mem_of_lookup hv)
    · exact .raise _
  · exact .raise _

/-- The value of a name of the vocabulary. -/
lemma nameValue_blind {i : ScopeId} (hi : I i) {name : String} (hname : V.names name) :
    Blind V I deep (Value.Clean V I) (nameValue i name) := by
  refine .bind (Q := fun o => ∀ v ∈ o, v.Clean V I)
    (.get fun st st' hst => hst.lookup hi hname) fun o ho => ?_
  cases o with
  | some v => exact .settle (ho v rfl)
  | none =>
    dsimp only
    split
    · exact .pure (Value.clean_builtin _)
    · exact .raise _

/-- The syntax that stands for a clean value. -/
lemma toSyntax_blind {v : Value} (hv : v.Clean V I) :
    Blind V I deep (fun e => e.within V) (toSyntax v) := by
  cases v
  case int | bool | str => exact .pure (by rw [Expr.within])
  case quote => exact .pure (Value.clean_quote_iff.mp hv)
  all_goals exact .raise _

/-- A built-in function, called with clean arguments. -/
lemma Builtin.call_blind (b : Builtin) {args : List Value} (hargs : ∀ v ∈ args, v.Clean V I) :
    Blind V I deep (Value.Clean V I) (b.call args) := by
  have items (b : Builtin) {v : Value} (hv : v.Clean V I) :
      Blind V I deep (fun items => ∀ w ∈ items, w.Clean V I) (b.itemsOf v) := by
    cases v with
    | array items => exact .pure (Value.clean_array_iff.mp hv)
    | _ => exact .raise _
  unfold Builtin.call
  split
  · unfold Builtin.lengthOf
    split
    · exact .pure (Value.clean_int _)
    · exact .pure (Value.clean_int _)
    · exact .raise _
  · refine .bind (items _ (hargs _ List.mem_cons_self)) fun vs hvs => .pure ?_
    exact Value.clean_getD fun v hv => hvs v (List.mem_of_head? hv)
  · refine .bind (items _ (hargs _ List.mem_cons_self)) fun vs hvs => .pure ?_
    exact Value.clean_getD fun v hv => hvs v (List.mem_of_getLast? hv)
  · refine .bind (items _ (hargs _ List.mem_cons_self)) fun vs hvs => .pure ?_
    exact Value.clean_array_iff.mpr fun v hv => hvs v (List.mem_of_mem_drop hv)
  · rename_i v item
    have hitem : item.Clean V I := hargs item (by simp)
    refine .bind (items _ (hargs _ List.mem_cons_self)) fun vs hvs => .pure ?_
    rw [Value.clean_array_iff, List.forall_mem_append]
    exact ⟨hvs, List.forall_mem_singleton.mpr hitem⟩
  · exact .bind (.update fun _ _ hst => hst.write _) fun _ _ => .pure Value.clean_null
  · exact .raise _

/-- A function that is made in a scope that can be met. -/
lemma newClosure_blind {i : ScopeId} (hi : I i) {params : List String} {body : Block}
    (hparams : params.all V.names) (hbody : stmtsWithin V body) :
    Blind V I deep (fun c => c.within V ∧ I c.scope)
      (Run.make (·.newClosure params body i) : Run ε Closure) := by
  refine .make fun st st' hst => ⟨?_, hst.newClosure params body i, ?_, hi⟩
  · rw [Store.newClosure, Store.newClosure, hst.closures_eq]
  · rw [Store.newClosure, Closure.within, Bool.and_eq_true]
    exact ⟨hparams, hbody⟩

/-! ## Lists -/

variable {deeper : Deeper} {i : ScopeId}

/-- Statements, if each of them is blind. -/
lemma evalStmts_blind {ss : List Stmt}
    (hss : ∀ s ∈ ss, Blind V I deep (Value.Clean V I) (s.evalWith deeper i)) {before : Value}
    (hbefore : before.Clean V I) :
    Blind V I deep (Value.Clean V I) (evalStmts deeper i before ss) := by
  induction ss generalizing before with
  | nil =>
    rw [evalStmts]
    exact .pure hbefore
  | cons s ss ih =>
    rw [List.forall_mem_cons] at hss
    rw [evalStmts_cons]
    refine .bind hss.1 fun v hv => ?_
    split
    · exact .pure hv
    · exact ih hss.2 hv

/-- The expressions of a list, if each of them is blind. -/
lemma evalExprs_blind {es : List Expr}
    (hes : ∀ e ∈ es, Blind V I deep (Value.Clean V I) (e.evalWith deeper i)) :
    Blind V I deep (fun vs => ∀ v ∈ vs, v.Clean V I) (evalExprs deeper i es) := by
  induction es with
  | nil =>
    rw [evalExprs]
    exact .pure (List.forall_mem_nil _)
  | cons e es ih =>
    rw [List.forall_mem_cons] at hes
    rw [evalExprs]
    refine .bind hes.1 fun v hv => .bind (ih hes.2) fun vs hvs => .pure ?_
    exact List.forall_mem_cons.mpr ⟨hv, hvs⟩

/-- Entries, if each key and each value is blind. -/
lemma evalEntries_blind {entries : List (Expr × Expr)}
    (hentries : ∀ e ∈ entries, Blind V I deep (Value.Clean V I) (e.1.evalWith deeper i) ∧
      Blind V I deep (Value.Clean V I) (e.2.evalWith deeper i)) {before : List (Key × Value)}
    (hbefore : ∀ e ∈ before, e.2.Clean V I) :
    Blind V I deep (fun pairs => ∀ e ∈ pairs, e.2.Clean V I)
      (evalEntries deeper i before entries) := by
  induction entries generalizing before with
  | nil =>
    rw [evalEntries]
    exact .pure hbefore
  | cons entry entries ih =>
    obtain ⟨k, e⟩ := entry
    rw [List.forall_mem_cons] at hentries
    rw [evalEntries]
    refine .bind hentries.1.1 fun kv _ => ?_
    split
    · exact .raise _
    · refine .bind hentries.1.2 fun v hv => ih hentries.2 fun e he => ?_
      rcases Assoc.mem_put he with he | rfl
      · exact hbefore e he
      · exact hv

/-! ## Calls and quotations -/

/-- What lies deeper is blind where the statements of a block are made of the vocabulary. -/
abbrev Deeper.Blind (V : Vocabulary) (I : ScopeId → Prop) (deep : Prop) (deeper : Deeper) : Prop :=
  ∀ block i, stmtsWithin V block → I i → Run.Blind V I deep (Value.Clean V I) (deeper block i)

section

variable (hdeeper : deeper.Blind V I deep)

include hdeeper

/-- **The body of a clean function or macro**, with its parameters bound to clean values. -/
theorem bodyValue_blind {c : Closure} (hc : c.within V) (hscope : I c.scope) {args : List Value}
    (hargs : ∀ v ∈ args, v.Clean V I) :
    Blind V I deep (Value.Clean V I) (bodyValue deeper c args) := by
  rw [Closure.within, Bool.and_eq_true] at hc
  refine .bind (Q := I) (.make fun st st' hst => ⟨hst.size_eq, hst.enclose hscope,
    hst.later (Nat.le_refl _)⟩) fun i hi => ?_
  refine .bind (.update fun st st' hst => hst.bindAll hi fun p hp => ?_) fun _ _ => ?_
  · exact hargs p.2 (List.of_mem_zip hp).2
  · exact .bind (hdeeper _ i hc.2 hi) fun v hv => .settle hv.unwrapReturn

/-- **A call** of what is clean with clean arguments. -/
theorem applyWith_blind {callee : Value} (hcallee : callee.Clean V I) {args : List Value}
    (hargs : ∀ v ∈ args, v.Clean V I) :
    Blind V I deep (Value.Clean V I) (applyWith deeper callee args) := by
  cases callee with
  | function c =>
    obtain ⟨-, hc, hscope⟩ := Value.clean_function_iff.mp hcallee
    rw [applyWith]
    split
    · exact bodyValue_blind hdeeper hc hscope hargs
    · exact .raise _
  | builtin b => exact .bind (b.call_blind hargs) fun v hv => .settle hv
  | _ => exact .raise _

/-- What stands for an expression in a quotation. -/
lemma spliceWith_blind (hi : I i) {e : Expr} (he : e.within V) :
    Blind V I deep (fun a => a.within V) (spliceWith deeper i e) := by
  unfold spliceWith
  split
  · exact .pure he
  · rename_i arg harg
    have hblock : stmtsWithin V [.expr arg] := by
      rw [stmtsWithin_iff, List.forall_mem_singleton, Stmt.within]
      exact Expr.within_unquoted he harg
    exact .bind (hdeeper _ i hblock hi) fun v hv => toSyntax_blind hv

/-- **A quotation.** -/
theorem quoteCallWith_blind (hi : I i) {args : List Expr} (hargs : ∀ e ∈ args, e.within V) :
    Blind V I deep (Value.Clean V I) (quoteCallWith deeper i args) := by
  unfold quoteCallWith
  split
  · rename_i e
    have he := Expr.staysWithin (hargs e List.mem_cons_self)
    rw [quoteWith, Expr.replaceM_eq, bind_assoc]
    refine .bind (.mapM fun x hx => spliceWith_blind hdeeper hi (he.handedOver x hx)) ?_
    exact fun as has => .pure (Value.clean_quote_iff.mpr (he.filled as has))
  · exact .raise _

/-! ## Expressions and statements -/

/-- Every expression and every statement within the vocabulary is blind, if what lies deeper is. -/
lemma evalWith_blind :
    (∀ e : Expr, e.within V → ∀ i, I i → Blind V I deep (Value.Clean V I) (e.evalWith deeper i)) ∧
      ∀ s : Stmt, s.within V → ∀ i, I i →
        Blind V I deep (Value.Clean V I) (s.evalWith deeper i) := by
  apply Expr.induction
  case ident =>
    intro name he i hi
    rw [Expr.within] at he
    rw [Expr.evalWith]
    exact nameValue_blind hi he
  case int =>
    intro n _ i _
    rw [Expr.evalWith]
    exact .pure (Value.clean_int n)
  case bool =>
    intro b _ i _
    rw [Expr.evalWith]
    exact .pure (Value.clean_bool b)
  case str =>
    intro s _ i _
    rw [Expr.evalWith]
    exact .pure (Value.clean_str s)
  case unary =>
    intro op e ih he i hi
    rw [Expr.within] at he
    rw [Expr.evalWith]
    exact .bind (ih he i hi) fun v _ => op.apply_blind v
  case binary =>
    intro op l r ihl ihr he i hi
    rw [Expr.within, Bool.and_eq_true] at he
    rw [Expr.evalWith]
    exact .bind (ihl he.1 i hi) fun v _ => .bind (ihr he.2 i hi) fun w _ => op.apply_blind v w
  case cond =>
    intro c yes no ihc ihyes ihno he i hi
    cases no with
    | none =>
      rw [Expr.within, Bool.and_eq_true, stmtsWithin_iff] at he
      rw [Expr.evalWith]
      refine .bind (ihc he.1 i hi) fun t _ => ?_
      split
      · exact evalStmts_blind (fun s hs => ihyes s hs (he.2 s hs) i hi) Value.clean_null
      · exact .pure Value.clean_null
    | some no =>
      rw [Expr.within, Bool.and_eq_true, Bool.and_eq_true, stmtsWithin_iff, stmtsWithin_iff] at he
      rw [Expr.evalWith]
      refine .bind (ihc he.1 i hi) fun t _ => ?_
      split
      · exact evalStmts_blind (fun s hs => ihyes s hs (he.2.1 s hs) i hi) Value.clean_null
      · exact evalStmts_blind (fun s hs => ihno no rfl s hs (he.2.2 s hs) i hi) Value.clean_null
  case fnLit =>
    intro params body _ he i hi
    rw [Expr.within, Bool.and_eq_true, Bool.and_eq_true] at he
    rw [Expr.evalWith]
    refine .bind (newClosure_blind hi he.2.1 he.2.2) fun c hc => .pure ?_
    exact Value.clean_function_iff.mpr ⟨he.1, hc⟩
  case macroLit =>
    intro params body _ he i hi
    rw [Expr.within, Bool.and_eq_true] at he
    rw [Expr.evalWith]
    exact .bind (newClosure_blind hi he.1 he.2) fun c hc => .pure (Value.clean_macroFn_iff.mpr hc)
  case call =>
    intro f args ihf ihargs he i hi
    rw [Expr.within, Bool.and_eq_true, exprsWithin_iff] at he
    rw [Expr.evalWith]
    split
    · exact quoteCallWith_blind hdeeper hi he.2
    · refine .bind (ihf he.1 i hi) fun v hv => ?_
      refine .bind (evalExprs_blind fun e hmem => ihargs e hmem (he.2 e hmem) i hi) fun vs hvs => ?_
      exact applyWith_blind hdeeper hv hvs
  case array =>
    intro items ih he i hi
    rw [Expr.within, exprsWithin_iff] at he
    rw [Expr.evalWith]
    refine .bind (evalExprs_blind fun e hmem => ih e hmem (he e hmem) i hi) fun vs hvs => ?_
    exact .pure (Value.clean_array_iff.mpr hvs)
  case hash =>
    intro entries ih he i hi
    rw [Expr.within, entriesWithin_iff] at he
    rw [Expr.evalWith]
    refine .bind (evalEntries_blind (fun e hmem => ?_) (List.forall_mem_nil _)) ?_
    · exact ⟨(ih e hmem).1 (he e hmem).1 i hi, (ih e hmem).2 (he e hmem).2 i hi⟩
    · exact fun pairs hpairs => .pure (Value.clean_hash_iff.mpr hpairs)
  case index =>
    intro b p ihb ihp he i hi
    rw [Expr.within, Bool.and_eq_true] at he
    rw [Expr.evalWith]
    exact .bind (ihb he.1 i hi) fun v hv => .bind (ihp he.2 i hi) fun w _ => indexInto_blind hv w
  case letBind =>
    intro name e ih he i hi
    rw [Stmt.within, Bool.and_eq_true] at he
    rw [Stmt.evalWith]
    refine .bind (ih he.2 i hi) fun v hv => ?_
    exact .bind (.update fun st st' hst => hst.bind hi name hv) fun _ _ => .pure hv
  case ret =>
    intro value ih he i hi
    cases value with
    | none =>
      rw [Stmt.evalWith]
      exact .pure (Value.clean_returned_iff.mpr Value.clean_null)
    | some e =>
      rw [Stmt.within] at he
      rw [Stmt.evalWith]
      exact .bind (ih e rfl he i hi) fun v hv => .pure (Value.clean_returned_iff.mpr hv)
  case expr =>
    intro e ih he i hi
    rw [Stmt.within] at he
    rw [Stmt.evalWith]
    exact ih he i hi

end

/-! ## Evaluation up to a depth -/

/-- **A block within the vocabulary**, evaluated in a scope that can be met.

**Proof sketch.** Induction on the depth. Where it is used up, both runs are too deep. -/
theorem evalBlock_blind (depth : Nat) : Deeper.Blind V I True (evalBlock depth) := by
  induction depth with
  | zero => exact fun _ _ _ _ _ _ _ => .tooDeep trivial
  | succ depth ih =>
    intro block i hblock hi
    refine evalStmts_blind (fun s hs => ?_) Value.clean_null
    exact (evalWith_blind ih).2 s (stmtsWithin_iff.mp hblock s hs) i hi

/-- An expression within the vocabulary. -/
lemma Expr.eval_blind (depth : Nat) {e : Expr} (h : e.within V) (hi : I i) :
    Blind V I True (Value.Clean V I) (e.eval depth i) :=
  (evalWith_blind (evalBlock_blind depth)).1 e h i hi

/-- A statement within the vocabulary. -/
lemma Stmt.eval_blind (depth : Nat) {s : Stmt} (h : s.within V) (hi : I i) :
    Blind V I True (Value.Clean V I) (s.eval depth i) :=
  (evalWith_blind (evalBlock_blind depth)).2 s h i hi

/-- Statements within the vocabulary, evaluated one after the other. -/
lemma Block.eval_blind (depth : Nat) {block : Block} (h : stmtsWithin V block) (hi : I i) :
    Blind V I True (Value.Clean V I) (block.eval depth i) :=
  evalBlock_blind (depth + 1) block i h hi

/-- A program within the vocabulary. -/
lemma Program.eval_blind (depth : Nat) {program : Program} (h : stmtsWithin V program)
    (hi : I i) : Blind V I True (Value.Clean V I) (program.eval depth i) :=
  .bind (Block.eval_blind depth h hi) fun _ hv => .settle hv.unwrapReturn

/-- **A part of a program of any kind** within the vocabulary. -/
theorem Tree.eval_blind (depth : Nat) {t : Tree} (h : t.within V) (hi : I i) :
    Blind V I True (Value.Clean V I) (t.eval depth i) := by
  cases t with
  | program p => exact Program.eval_blind depth h hi
  | block b => exact Block.eval_blind depth h hi
  | stmt s => exact Stmt.eval_blind depth h hi
  | expr e => exact Expr.eval_blind depth h hi

end

end QuoteLang
