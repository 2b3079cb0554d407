import QuoteLang.Proofs.Growth

set_option relaxedAutoImplicit false
set_option autoImplicit false

/-!
# What a host can reach

A host is a program that makes scopes, binds values in them, and evaluates what it likes. Scopes and
functions may come to refer to one another in cycles, since a function that is bound in a scope may
refer to that scope. But an outer scope is always older, and no scope is referred to that has not
been made. So a walk from a scope outwards comes to an end, whatever the host has done before.

## Main definitions

* `Store.Finds`, `Store.Lists` — looking up a name and listing all names, as walks that need not
  come to an end.
* `Host` — a store and the values that a host holds.
* `Host.Obtains`, `Host.Calls`, `Host.Begins` — the values that a host can come by, the evaluations
  it can ask for, and where they begin.
* `Host.Step`, `Host.Reachable` — what a host can do, once and again and again.
* `Host.IsClosed` — outer scopes are older, what is referred to has been made, and walks come to an
  end.

## Main results

* `Store.WellFormed.finds_iff`, `Store.WellFormed.lists_iff` — walks in a well-formed store.
* `Host.Step.growsTo` — what a host does keeps its store well-formed, and its values fit.
* `Host.reachable_isClosed` — all that a host can reach is closed, although cycles can be reached.
-/

namespace QuoteLang

open Run

/-! ## Walks -/

namespace Store

/-- **Looking up a name** as a walk: a scope is asked, and then the one around it if there is one.
Whether that is older does not matter here. If outer scopes went round in a cycle, the walk would
not end, and there would be no answer. -/
inductive Finds (st : Store) (name : String) : ScopeId → Option Value → Prop
  /-- The scope binds the name. -/
  | bound {i : ScopeId} {s : Scope} {v : Value} (hs : st.scopes[i]? = some s)
      (hv : s.bindings.lookup name = some v) : Finds st name i (some v)
  /-- The scope does not bind the name, and there is none around it. -/
  | missing {i : ScopeId} {s : Scope} (hs : st.scopes[i]? = some s)
      (hv : s.bindings.lookup name = none) (ho : s.outer = none) : Finds st name i none
  /-- The scope does not bind the name, and the walk goes on in the one around it. -/
  | outer {i o : ScopeId} {s : Scope} {r : Option Value} (hs : st.scopes[i]? = some s)
      (hv : s.bindings.lookup name = none) (ho : s.outer = some o) (h : Finds st name o r) :
      Finds st name i r

/-- **Listing all names** as a walk: what is bound in a scope is put in after what is listed from
the one around it. -/
inductive Lists (st : Store) : ScopeId → List (String × Value) → Prop
  /-- There is no scope around this one. -/
  | outermost {i : ScopeId} {s : Scope} (hs : st.scopes[i]? = some s) (ho : s.outer = none) :
      Lists st i (s.bindings.foldl (fun acc p => Assoc.putSorted p.1 p.2 acc) [])
  /-- The walk goes on in the scope around this one. -/
  | outer {i o : ScopeId} {s : Scope} {around : List (String × Value)}
      (hs : st.scopes[i]? = some s) (ho : s.outer = some o) (h : Lists st o around) :
      Lists st i (s.bindings.foldl (fun acc p => Assoc.putSorted p.1 p.2 acc) around)

/-- The names that can be seen from a scope are its own and those seen from the one around it. -/
lemma visible_eq {st : Store} {i : ScopeId} {s : Scope} (hs : st.scopes[i]? = some s)
    (hlt : ∀ o, s.outer = some o → o < i) :
    st.visible i = s.bindings.foldl (fun acc p => Assoc.putSorted p.1 p.2 acc)
      ((s.outer.map st.visible).getD []) := by
  rw [visible, hs]
  dsimp only
  cases ho : s.outer with
  | none => rfl
  | some o =>
    dsimp only
    rw [if_pos (hlt o ho)]
    rfl

namespace WellFormed

variable {st : Store} (hst : st.WellFormed) {i : ScopeId} (hi : i < st.scopes.size)

include hst hi

/-- **Looking up a name comes to an end** from every scope, with one answer. -/
theorem finds_iff {name : String} {r : Option Value} :
    st.Finds name i r ↔ r = st.lookup i name := by
  constructor
  · intro h
    clear hi
    induction h with
    | bound hs hv => rw [lookup_eq hs fun _ => hst.outer_lt hs, hv, Option.some_or]
    | missing hs hv ho => rw [lookup_eq hs fun _ => hst.outer_lt hs, hv, ho]; rfl
    | outer hs hv ho _ ih => rw [lookup_eq hs fun _ => hst.outer_lt hs, hv, ho, ih]; rfl
  · rintro rfl
    induction i using Nat.strongRecOn with
    | _ i ih =>
      have hs := Array.getElem?_eq_getElem hi
      rw [lookup_eq hs fun _ => hst.outer_lt hs]
      cases hv : st.scopes[i].bindings.lookup name with
      | some v => exact .bound hs hv
      | none =>
        cases ho : st.scopes[i].outer with
        | none => exact .missing hs hv ho
        | some o =>
          have hlt := hst.outer_lt hs ho
          exact .outer hs hv ho (ih o hlt (Nat.lt_trans hlt hi))

/-- **Listing all names comes to an end** from every scope, with one answer. -/
theorem lists_iff {ps : List (String × Value)} : st.Lists i ps ↔ ps = st.visible i := by
  constructor
  · intro h
    clear hi
    induction h with
    | outermost hs ho => rw [visible_eq hs fun _ => hst.outer_lt hs, ho]; rfl
    | outer hs ho _ ih => rw [visible_eq hs fun _ => hst.outer_lt hs, ho, ih]; rfl
  · rintro rfl
    induction i using Nat.strongRecOn with
    | _ i ih =>
      have hs := Array.getElem?_eq_getElem hi
      rw [visible_eq hs fun _ => hst.outer_lt hs]
      cases ho : st.scopes[i].outer with
      | none => exact .outermost hs ho
      | some o =>
        have hlt := hst.outer_lt hs ho
        exact .outer hs ho (ih o hlt (Nat.lt_trans hlt hi))

end WellFormed

end Store

/-! ## Hosts -/

/-- What a host has: a store, and the values that it has made or been given. It may refer to every
scope of the store. -/
structure Host where
  /-- Everything made, bound and written so far. -/
  store : Store
  /-- The values that it holds. -/
  held : List Value

namespace Host

/-- The values that a host can come by without a change of the store: it makes them from others,
takes others apart, or asks a scope. -/
inductive Obtains (h : Host) : Value → Prop
  /-- An integer. -/
  | int (n : Int64) : Obtains h (.int n)
  /-- A truth value. -/
  | bool (b : Bool) : Obtains h (.bool b)
  /-- A string. -/
  | str (s : String) : Obtains h (.str s)
  /-- No value. -/
  | null : Obtains h .null
  /-- A built-in function. -/
  | builtin (b : Builtin) : Obtains h (.builtin b)
  /-- An error. -/
  | error (message : String) : Obtains h (.error message)
  /-- A piece of syntax. -/
  | quote (e : Expr) : Obtains h (.quote e)
  /-- An array of held values. -/
  | array {items : List Value} (hitems : ∀ v ∈ items, v ∈ h.held) : Obtains h (.array items)
  /-- A hash without entries. -/
  | emptyHash : Obtains h (.hash [])
  /-- A held hash after a held value has been put in. -/
  | put {entries : List (Key × Value)} {v : Value} (key : Key)
      (hentries : .hash entries ∈ h.held) (hv : v ∈ h.held) :
      Obtains h (.hash (Assoc.put key v entries))
  /-- A held value on its way out of a function. -/
  | returned {v : Value} (hv : v ∈ h.held) : Obtains h (.returned v)
  /-- What is inside a held value. -/
  | part {v w : Value} (hv : v ∈ h.held) (hw : v.Holds w) : Obtains h w
  /-- What a name is bound to. -/
  | lookup {scope : ScopeId} {name : String} {v : Value} (hscope : scope < h.store.scopes.size)
      (hv : h.store.lookup scope name = some v) : Obtains h v
  /-- What any name is bound to that can be seen from a scope. -/
  | visible {scope : ScopeId} {p : String × Value} (hscope : scope < h.store.scopes.size)
      (hp : p ∈ h.store.visible scope) : Obtains h p.2

/-- The evaluations that a host can ask for. -/
inductive Calls (h : Host) : Run Fault Value → Prop
  /-- Whatever is evaluated in a scope. -/
  | eval {scope : ScopeId} (hscope : scope < h.store.scopes.size) (depth : Nat) (t : Tree) :
      Calls h (t.eval depth scope)
  /-- A held value is called with held values. -/
  | apply {f : Value} {args : List Value} (hf : f ∈ h.held) (hargs : ∀ v ∈ args, v ∈ h.held)
      (depth : Nat) : Calls h (f.apply depth args)
  /-- An expression is quoted in a scope. -/
  | quote {scope : ScopeId} (hscope : scope < h.store.scopes.size) (depth : Nat) (e : Expr) :
      Calls h (e.quote depth scope)

/-- The points at which the evaluations begin that a host can ask for, and those of the bodies of
macros in an expansion. -/
inductive Begins (h : Host) : Point → Prop
  /-- A program or a block. -/
  | stmts {scope : ScopeId} (hscope : scope < h.store.scopes.size) (depth : Nat)
      (ss : List Stmt) : Begins h ⟨depth, scope, .stmts .null ss, h.store⟩
  /-- A statement. -/
  | stmt {scope : ScopeId} (hscope : scope < h.store.scopes.size) (depth : Nat) (s : Stmt) :
      Begins h ⟨depth, scope, .stmt s, h.store⟩
  /-- An expression. -/
  | expr {scope : ScopeId} (hscope : scope < h.store.scopes.size) (depth : Nat) (e : Expr) :
      Begins h ⟨depth, scope, .expr e, h.store⟩
  /-- What a quotation hands over. -/
  | splices {scope : ScopeId} (hscope : scope < h.store.scopes.size) (depth : Nat) (e : Expr) :
      Begins h ⟨depth, scope, .splices e.handedOver, h.store⟩
  /-- The body of a function. -/
  | body {c : Closure} {args : List Value} (hc : .function c ∈ h.held)
      (hargs : ∀ v ∈ args, v ∈ h.held) (depth : Nat) :
      Begins h ⟨depth, h.store.scopes.size, .stmts .null c.body,
        (h.store.enclose c.scope).2.bindAll h.store.scopes.size (c.params.zip args)⟩
  /-- The body of a macro. -/
  | macroBody {macros : ScopeId} {depth : Nat} {program : Program} {P : Point}
      (hmacros : macros < h.store.scopes.size)
      (hP : Expands macros depth (handedOverStmts program) h.store P) : Begins h P

/-- **What a host can do.** What it is given by this it holds from then on. Besides, it may stop an
evaluation at any point, and go on with the store that it finds there; so all stores that come up in
the middle of something count as reached. -/
inductive Step (h : Host) : Host → Prop
  /-- It comes by a value. -/
  | hold {v : Value} (hv : h.Obtains v) : Step h ⟨h.store, v :: h.held⟩
  /-- It makes a scope without an outer scope. -/
  | newGlobal : Step h ⟨h.store.newGlobal.2, h.held⟩
  /-- It makes a scope inside another. -/
  | enclose {outer : ScopeId} (houter : outer < h.store.scopes.size) :
      Step h ⟨(h.store.enclose outer).2, h.held⟩
  /-- It binds a held value. -/
  | bind {scope : ScopeId} {v : Value} (hscope : scope < h.store.scopes.size) (name : String)
      (hv : v ∈ h.held) : Step h ⟨h.store.bind scope name v, h.held⟩
  /-- It makes a function in a scope. -/
  | function {scope : ScopeId} (hscope : scope < h.store.scopes.size) (params : List String)
      (body : Block) : Step h ⟨(h.store.newClosure params body scope).2,
        .function (h.store.newClosure params body scope).1 :: h.held⟩
  /-- It makes a macro in a scope. -/
  | macroFn {scope : ScopeId} (hscope : scope < h.store.scopes.size) (params : List String)
      (body : Block) : Step h ⟨(h.store.newClosure params body scope).2,
        .macroFn (h.store.newClosure params body scope).1 :: h.held⟩
  /-- It has something evaluated. -/
  | evaluate {x : Run Fault Value} {v : Value} {st : Store} (hx : h.Calls x)
      (hv : (x h.store).value? = some (v, st)) : Step h ⟨st, v :: h.held⟩
  /-- It defines the macros of a program. -/
  | defineMacros {macros : ScopeId} {program program' : Program} {st : Store}
      (hmacros : macros < h.store.scopes.size)
      (hdefine : (program.defineMacros macros : Run ExpansionFault Program) h.store =
        .ok program' st) : Step h ⟨st, h.held⟩
  /-- It expands a program. -/
  | expandMacros {macros : ScopeId} {depth : Nat} {program program' : Program} {st : Store}
      (hmacros : macros < h.store.scopes.size)
      (hexpand : program.expandMacros depth macros h.store = .ok program' st) :
      Step h ⟨st, h.held⟩
  /-- It expands a program, and that fails. -/
  | expansionFails {macros : ScopeId} {depth : Nat} {program : Program} {f : ExpansionFault}
      {st : Store} (hmacros : macros < h.store.scopes.size)
      (hexpand : program.expandMacros depth macros h.store = .fault f st) : Step h ⟨st, h.held⟩
  /-- It has a session take a source text. -/
  | session {globals macros : ScopeId} {depth : Nat} {source : String}
      {answer : Except HostError Value} {s : Session} (hglobals : globals < h.store.scopes.size)
      (hmacros : macros < h.store.scopes.size)
      (hrun : Session.run depth source ⟨h.store, globals, macros⟩ = some (answer, s)) :
      Step h ⟨s.store, answer.toOption.toList ++ h.held⟩
  /-- It takes away the text that has been written. -/
  | takeOutput : Step h ⟨h.store.takeOutput.2, h.held⟩
  /-- It stops an evaluation in the middle. -/
  | stop {P Q : Point} (hP : h.Begins P) (hQ : P.Reaches Q) : Step h ⟨Q.store, h.held⟩

/-- What a host can reach, beginning with nothing. -/
inductive Reachable : Host → Prop
  /-- Nothing has been made, and nothing is held. -/
  | start : Reachable ⟨.empty, []⟩
  /-- The host does something more. -/
  | step {h h' : Host} (hreach : Reachable h) (hstep : h.Step h') : Reachable h'

/-! ## The invariant -/

/-- The store of a host is well-formed, and its values fit. -/
structure Sound (h : Host) : Prop where
  /-- The store is well-formed. -/
  store : h.store.WellFormed
  /-- The values fit. -/
  held : ∀ v ∈ h.held, v.Fits h.store

/-- A host becomes one that is sound, and no scope is lost. -/
structure GrowsTo (h h' : Host) : Prop where
  /-- The host after it is sound. -/
  sound : h'.Sound
  /-- No scope is lost. -/
  size_le : h.store.scopes.size ≤ h'.store.scopes.size

namespace Sound

variable {h : Host} (hh : h.Sound)

include hh

/-- A sound host grows to one with another store and the same values. -/
lemma growsTo {st : Store} (hst : h.store.GrowsTo st) : h.GrowsTo ⟨st, h.held⟩ :=
  ⟨⟨hst.wellFormed, fun v hv => (hh.held v hv).mono hst.size_le⟩, hst.size_le⟩

/-- A sound host grows to one with another store and one more value that fits there. -/
lemma growsTo_cons {st : Store} {v : Value} (hst : h.store.GrowsTo st) (hv : v.Fits st) :
    h.GrowsTo ⟨st, v :: h.held⟩ :=
  ⟨⟨hst.wellFormed, List.forall_mem_cons.mpr ⟨hv, (hh.growsTo hst).sound.held⟩⟩, hst.size_le⟩

/-- The values that a host can come by fit. -/
lemma obtains {v : Value} (hv : h.Obtains v) : v.Fits h.store := by
  have hst := hh.store
  cases hv with
  | int n => exact hst.fits_of_alike (.int n)
  | bool b => exact hst.fits_of_alike (.bool b)
  | str s => exact hst.fits_of_alike (.str s)
  | null => exact hst.fits_of_alike .null
  | builtin b => exact hst.fits_of_alike (.builtin b)
  | error message => exact hst.fits_of_alike (.error message)
  | quote e => exact hst.fits_of_alike (.quote e)
  | array hitems => exact hst.fits_array fun v hv => hh.held v (hitems v hv)
  | emptyHash => exact hst.fits_hash_nil
  | put key hentries hv => exact hst.fits_put (hh.held _ hentries) key (hh.held _ hv)
  | returned hv => exact hst.fits_returned (hh.held _ hv)
  | part hv hw => exact (hh.held _ hv).of_holds hw
  | lookup _ hv => exact hst.fits_lookup hv
  | visible hscope hp => exact hst.fits_visible hscope hp

/-- The evaluations that a host can ask for grow its store. -/
lemma calls {x : Run Fault Value} (hx : h.Calls x) : x.Grows h.store := by
  cases hx with
  | eval hscope depth t => exact t.eval_grows hh.store hscope depth
  | apply hf hargs depth =>
    exact Value.apply_grows hh.store depth (hh.held _ hf) fun v hv => hh.held v (hargs v hv)
  | quote hscope depth e => exact e.quote_grows hh.store hscope depth

/-- The points at which the evaluations begin are closed. -/
lemma begins {P : Point} (hP : h.Begins P) : P.ClosedAfter h.store := by
  cases hP with
  | stmts hscope => exact ⟨hh.store, hscope, hh.store.fits_of_alike .null, Nat.le_refl _⟩
  | stmt hscope | expr hscope | splices hscope =>
    exact ⟨hh.store, hscope, trivial, Nat.le_refl _⟩
  | body hc hargs depth =>
    have hlt := (hh.held _ hc).lt_size ⟨_, .inl (.self _), rfl⟩
    exact Point.closedAfter_body hh.store hlt (fun v hv => hh.held v (hargs v hv)) depth
  | macroBody hmacros hP => exact hP.closedAfter hh.store hmacros

/-- A session takes a source text. -/
lemma session {globals macros : ScopeId} {depth : Nat} {source : String}
    {answer : Except HostError Value} {s : Session} (hglobals : globals < h.store.scopes.size)
    (hmacros : macros < h.store.scopes.size)
    (hrun : Session.run depth source ⟨h.store, globals, macros⟩ = some (answer, s)) :
    h.GrowsTo ⟨s.store, answer.toOption.toList ++ h.held⟩ := by
  have hruns : Session.Step.Runs ⟨depth, source, ⟨h.store, globals, macros⟩, answer, s⟩ := hrun
  rcases hruns.cases with ⟨e, -, hanswer, hafter⟩ | ⟨program, f, st, -, hfault, hanswer, hafter⟩ |
    ⟨program, program', st, v, st', -, hok, hvalue, hanswer, hafter⟩
  · obtain rfl : answer = .error (.parse e) := hanswer
    obtain rfl : s = ⟨h.store, globals, macros⟩ := hafter
    exact hh.growsTo (hh.store.of_scopes_eq rfl)
  · obtain rfl : answer = .error (.expansion f) := hanswer
    obtain rfl : s = ⟨st, globals, macros⟩ := hafter
    exact hh.growsTo ((Session.expand_grows hh.store hmacros depth program).of_fault hfault)
  · obtain rfl : answer = .ok v := hanswer
    obtain rfl : s = ⟨st', globals, macros⟩ := hafter
    have hexpand := (Session.expand_grows hh.store hmacros depth program).of_ok hok
    have hscope := Nat.lt_of_lt_of_le hglobals hexpand.size_le
    have heval := (Tree.program program').eval_grows hexpand.wellFormed hscope depth
    obtain ⟨hgrows, hv⟩ := heval.of_value? hvalue
    exact hh.growsTo_cons (hexpand.trans hgrows) hv

end Sound

/-- **What a host does keeps it sound**, and no scope is lost. -/
theorem Step.growsTo {h h' : Host} (hstep : h.Step h') (hh : h.Sound) : h.GrowsTo h' := by
  have hst := hh.store
  cases hstep with
  | hold hv => exact hh.growsTo_cons (hst.of_scopes_eq rfl) (hh.obtains hv)
  | newGlobal => exact hh.growsTo (hst.newScope (by simp))
  | enclose houter => exact hh.growsTo (hst.newScope (by simpa using houter))
  | bind _ name hv => exact hh.growsTo (hst.bind _ name (hh.held _ hv))
  | @function scope hscope params body =>
    have hmade : h.store.GrowsTo (h.store.newClosure params body scope).2 := hst.of_scopes_eq rfl
    exact hh.growsTo_cons hmade (hmade.wellFormed.fits_function hscope)
  | @macroFn scope hscope params body =>
    have hmade : h.store.GrowsTo (h.store.newClosure params body scope).2 := hst.of_scopes_eq rfl
    exact hh.growsTo_cons hmade (hmade.wellFormed.fits_macroFn hscope)
  | evaluate hx hv =>
    obtain ⟨hgrows, hv⟩ := (hh.calls hx).of_value? hv
    exact hh.growsTo_cons hgrows hv
  | defineMacros hmacros hdefine =>
    exact hh.growsTo ((Program.defineMacros_grows hst hmacros _).of_ok hdefine)
  | expandMacros hmacros hexpand =>
    exact hh.growsTo ((Program.expandMacros_grows hst hmacros _ _).of_ok hexpand)
  | expansionFails hmacros hexpand =>
    exact hh.growsTo ((Program.expandMacros_grows hst hmacros _ _).of_fault hexpand)
  | session hglobals hmacros hrun => exact hh.session hglobals hmacros hrun
  | takeOutput => exact hh.growsTo (hst.of_scopes_eq rfl)
  | stop hP hQ =>
    have hclosed := hQ.closedAfter (hh.begins hP)
    exact hh.growsTo ⟨hclosed.store, hclosed.size_le⟩

/-- All that a host can reach is sound. -/
lemma Reachable.sound {h : Host} (hreach : Reachable h) : h.Sound := by
  induction hreach with
  | start =>
    have hnone {i : ScopeId} {s : Scope} : Store.empty.scopes[i]? ≠ some s := by simp [Store.empty]
    exact ⟨⟨fun hs => absurd hs hnone, fun i s hs => absurd hs hnone⟩, by simp⟩
  | step _ hstep ih => exact (hstep.growsTo ih).sound

/-! ## Closed hosts -/

/-- A host is **closed**: what is referred to has been made, and every walk comes to an end. -/
structure IsClosed (h : Host) : Prop where
  /-- No scope is lost, so those that are made later have larger numbers. -/
  size_le {h' : Host} : h.Step h' → h.store.scopes.size ≤ h'.store.scopes.size
  /-- An outer scope has been made before the scopes inside it. -/
  outer_lt {i o : ScopeId} {s : Scope} : h.store.scopes[i]? = some s → s.outer = some o → o < i
  /-- What is bound refers to scopes that have been made. -/
  bound_lt {i j : ScopeId} {s : Scope} {p : String × Value} : h.store.scopes[i]? = some s →
    p ∈ s.bindings → p.2.RefersTo j → j < h.store.scopes.size
  /-- What is held refers to scopes that have been made. -/
  held_lt {v : Value} {j : ScopeId} : v ∈ h.held → v.RefersTo j → j < h.store.scopes.size
  /-- An evaluation takes place in a scope that has been made, wherever it has got to. -/
  running_lt {P Q : Point} : h.Begins P → P.Reaches Q → Q.scope < Q.store.scopes.size
  /-- Looking up a name comes to an end from every scope, with one answer. -/
  finds_iff {i : ScopeId} {name : String} {r : Option Value} : i < h.store.scopes.size →
    (h.store.Finds name i r ↔ r = h.store.lookup i name)
  /-- Listing all names comes to an end from every scope, with one answer. -/
  lists_iff {i : ScopeId} {ps : List (String × Value)} : i < h.store.scopes.size →
    (h.store.Lists i ps ↔ ps = h.store.visible i)

/-- A sound host is closed. -/
lemma Sound.isClosed {h : Host} (hh : h.Sound) : h.IsClosed where
  size_le hstep := (hstep.growsTo hh).size_le
  outer_lt := hh.store.outer_lt
  bound_lt hs hp := (hh.store.fits _ _ hs _ hp).lt_size
  held_lt hv := (hh.held _ hv).lt_size
  running_lt hP hQ := (hQ.closedAfter (hh.begins hP)).scope_lt
  finds_iff hi := hh.store.finds_iff hi
  lists_iff hi := hh.store.lists_iff hi

/-- A scope and a function **refer to each other**: the scope binds the function. -/
def HasCycle (h : Host) : Prop :=
  ∃ (i : ScopeId) (s : Scope) (name : String) (c : Closure), h.store.scopes[i]? = some s ∧
    (name, .function c) ∈ s.bindings ∧ c.scope = i

/-- A host reaches a cycle when it makes a scope and evaluates `let f = fn() {};` there. -/
lemma exists_reachable_hasCycle : ∃ h, Reachable h ∧ h.HasCycle := by
  have hglobal : Reachable ⟨Store.empty.newGlobal.2, []⟩ := .step .start .newGlobal
  let bindF : Tree := .stmt (.letBind "f" (.fnLit [] []))
  have hcall : Calls ⟨Store.empty.newGlobal.2, []⟩ (bindF.eval 0 0) := .eval (by decide) 0 bindF
  let c : Closure := ⟨0, [], [], 0⟩
  have hreach : Reachable ⟨⟨#[⟨[("f", .function c)], none⟩], 1, ""⟩, [.function c]⟩ :=
    .step hglobal (.evaluate hcall (by with_unfolding_all rfl))
  exact ⟨_, hreach, 0, _, "f", c, rfl, .head _, rfl⟩

/-- **All that a host can reach is closed**, whatever it makes, binds, evaluates, calls, quotes and
expands, and in the middle of each evaluation as well: an outer scope has been made earlier than the
scopes inside it, every function and macro refers to a scope that has been made, and looking up a
name and listing all names come to an end from every scope. This is so although scopes can be
reached that bind functions which refer to them.

**Proof sketch.** What evaluation does to a well-formed store leaves it well-formed, since
evaluation follows itself there. So one step of a host keeps its store well-formed, and what it
holds fits; and in a well-formed store every walk goes to older scopes. -/
theorem reachable_isClosed :
    (∀ h, Reachable h → h.IsClosed) ∧ ∃ h, Reachable h ∧ h.HasCycle :=
  ⟨fun _ hreach => hreach.sound.isClosed, exists_reachable_hasCycle⟩

end Host

end QuoteLang
