import QuoteLang.Proofs.Replace
import QuoteLang.Proofs.WellFormed

set_option relaxedAutoImplicit false
set_option autoImplicit false

/-!
# What syntax is made of

A vocabulary says which names may occur in syntax, and whether function literals may. No syntax is
ever made of anything else than what there was: a quotation is filled in with pieces of syntax that
other quotations have yielded, and functions and macros keep their bodies as they were written.

## Main definitions

* `Vocabulary` — the names that may occur, and whether function literals may.
* `Expr.within`, `Stmt.within`, `Tree.within` — syntax that is made of a vocabulary.
* `Value.Within` — all syntax inside a value is.
* `Value.Clean` — a value is within a vocabulary and refers to certain scopes only.

## Main results

* `Expr.staysWithin` — what is filled in with answers is within a vocabulary if the answers are.
* `Value.clean_array_iff`, `Value.clean_hash_iff` — data is clean if its parts are.
-/

namespace QuoteLang

/-! ## Vocabularies -/

/-- What syntax may be made of. -/
structure Vocabulary where
  /-- The names that may occur, as names that are looked up, bound by a `let`, or parameters. -/
  names : String → Bool
  /-- Whether function literals may occur. -/
  functions : Bool

namespace Vocabulary

/-- Everything may occur. -/
def all : Vocabulary := ⟨fun _ => true, true⟩

/-- Everything may occur but one name. -/
def without (name : String) : Vocabulary := ⟨(· != name), true⟩

/-- Everything may occur but function literals. -/
def noFunctions : Vocabulary := ⟨fun _ => true, false⟩

end Vocabulary

mutual

/-- An expression is made of a vocabulary, with everything that is nested in it. -/
def Expr.within (V : Vocabulary) : Expr → Bool
  | .ident name => V.names name
  | .int _ | .bool _ | .str _ => true
  | .unary _ e => e.within V
  | .binary _ l r => l.within V && r.within V
  | .cond c yes none => c.within V && stmtsWithin V yes
  | .cond c yes (some no) => c.within V && (stmtsWithin V yes && stmtsWithin V no)
  | .fnLit params body => V.functions && (params.all V.names && stmtsWithin V body)
  | .call callee args => callee.within V && exprsWithin V args
  | .array items => exprsWithin V items
  | .hash entries => entriesWithin V entries
  | .index base position => base.within V && position.within V
  | .macroLit params body => params.all V.names && stmtsWithin V body

/-- A statement is made of a vocabulary. -/
def Stmt.within (V : Vocabulary) : Stmt → Bool
  | .letBind name value => V.names name && value.within V
  | .ret none => true
  | .ret (some value) => value.within V
  | .expr value => value.within V

/-- The statements of a list are made of a vocabulary. -/
def stmtsWithin (V : Vocabulary) : List Stmt → Bool
  | [] => true
  | s :: rest => s.within V && stmtsWithin V rest

/-- The expressions of a list are made of a vocabulary. -/
def exprsWithin (V : Vocabulary) : List Expr → Bool
  | [] => true
  | e :: rest => e.within V && exprsWithin V rest

/-- The entries of a hash literal are made of a vocabulary. -/
def entriesWithin (V : Vocabulary) : List (Expr × Expr) → Bool
  | [] => true
  | (key, value) :: rest => key.within V && (value.within V && entriesWithin V rest)

end

/-- A part of a program is made of a vocabulary. -/
def Tree.within (V : Vocabulary) : Tree → Bool
  | .program p => stmtsWithin V p
  | .block b => stmtsWithin V b
  | .stmt s => s.within V
  | .expr e => e.within V

section

variable {V : Vocabulary}

/-! ## Lists and answers -/

/-- Statements are within a vocabulary exactly if each of them is. -/
lemma stmtsWithin_iff {ss : List Stmt} : stmtsWithin V ss ↔ ∀ s ∈ ss, s.within V := by
  induction ss with
  | nil => simp [stmtsWithin]
  | cons s ss ih => rw [stmtsWithin, Bool.and_eq_true, ih, List.forall_mem_cons]

/-- The expressions of a list are within a vocabulary exactly if each of them is. -/
lemma exprsWithin_iff {es : List Expr} : exprsWithin V es ↔ ∀ e ∈ es, e.within V := by
  induction es with
  | nil => simp [exprsWithin]
  | cons e es ih => rw [exprsWithin, Bool.and_eq_true, ih, List.forall_mem_cons]

/-- Entries are within a vocabulary exactly if each key and each value is. -/
lemma entriesWithin_iff {entries : List (Expr × Expr)} :
    entriesWithin V entries ↔ ∀ e ∈ entries, e.1.within V ∧ e.2.within V := by
  induction entries with
  | nil => simp [entriesWithin]
  | cons e entries ih =>
    obtain ⟨k, v⟩ := e
    rw [entriesWithin, Bool.and_eq_true, Bool.and_eq_true, ih, List.forall_mem_cons, and_assoc]

/-- Every expression and every statement is made of everything. -/
lemma within_all : (∀ e : Expr, e.within .all) ∧ ∀ s : Stmt, s.within .all := by
  have params (ps : List String) : ps.all Vocabulary.all.names :=
    List.all_eq_true.mpr fun _ _ => rfl
  apply Expr.induction
  case ident =>
    intro name
    rw [Expr.within]
    rfl
  case int | bool | str =>
    intro a
    rw [Expr.within]
  case unary =>
    intro op e ih
    rw [Expr.within, ih]
  case binary =>
    intro op l r ihl ihr
    rw [Expr.within, ihl, ihr, Bool.and_self]
  case cond =>
    intro c yes no ihc ihyes ihno
    have hyes := stmtsWithin_iff.mpr ihyes
    cases no with
    | none => rw [Expr.within, ihc, hyes, Bool.and_self]
    | some no => rw [Expr.within, ihc, hyes, stmtsWithin_iff.mpr (ihno no rfl), Bool.and_self,
        Bool.and_self]
  case fnLit =>
    intro ps body ih
    rw [Expr.within, params, stmtsWithin_iff.mpr ih]
    rfl
  case macroLit =>
    intro ps body ih
    rw [Expr.within, params, stmtsWithin_iff.mpr ih, Bool.and_self]
  case call =>
    intro f args ihf ihargs
    rw [Expr.within, ihf, exprsWithin_iff.mpr ihargs, Bool.and_self]
  case array =>
    intro items ih
    rw [Expr.within, exprsWithin_iff.mpr ih]
  case hash =>
    intro entries ih
    rw [Expr.within, entriesWithin_iff.mpr ih]
  case index =>
    intro b p ihb ihp
    rw [Expr.within, ihb, ihp, Bool.and_self]
  case letBind =>
    intro name e ih
    rw [Stmt.within, ih]
    rfl
  case ret =>
    intro value ih
    cases value with
    | none => rw [Stmt.within]
    | some e => rw [Stmt.within, ih e rfl]
  case expr =>
    intro e ih
    rw [Stmt.within, ih]

/-! ## Filling in answers -/

/-- A part of a tree **stays** within a vocabulary: what it hands over is within, and so is what
becomes of it with answers that are. -/
structure StaysWithin (V : Vocabulary) (handedOver : List Expr) (filled : List Expr → Bool) :
    Prop where
  /-- What is handed over is within the vocabulary. -/
  handedOver : ∀ e ∈ handedOver, e.within V
  /-- So is what results from answers within it. -/
  filled : ∀ as : List Expr, (∀ a ∈ as, a.within V) → filled as

namespace StaysWithin

variable {xs ys : List Expr} {p q : List Expr → Bool}

/-- Nothing is handed over, and nothing filled in. -/
lemma nil : StaysWithin V [] fun _ => true :=
  ⟨List.forall_mem_nil _, fun _ _ => rfl⟩

/-- An expression that is handed over whole. -/
lemma single {e : Expr} (he : e.within V) : StaysWithin V [e] fun as => (as.headD e).within V := by
  refine ⟨List.forall_mem_singleton.mpr he, fun as has => ?_⟩
  cases as with
  | nil => exact he
  | cons a as => exact has a List.mem_cons_self

/-- Two parts, the first before the second. -/
lemma both (hp : StaysWithin V xs p) (hq : StaysWithin V ys q) :
    StaysWithin V (xs ++ ys) fun as => p (as.take xs.length) && q (as.drop xs.length) := by
  refine ⟨List.forall_mem_append.mpr ⟨hp.handedOver, hq.handedOver⟩, fun as has => ?_⟩
  rw [Bool.and_eq_true]
  exact ⟨hp.filled _ fun a ha => has a (List.mem_of_mem_take ha),
    hq.filled _ fun a ha => has a (List.mem_of_mem_drop ha)⟩

/-- A part with something beside it that stays as it is. -/
lemma beside {b : Bool} (hb : b) (h : StaysWithin V xs p) :
    StaysWithin V xs fun as => b && p as := by
  refine ⟨h.handedOver, fun as has => ?_⟩
  rw [Bool.and_eq_true]
  exact ⟨hb, h.filled as has⟩

/-- Statements, if each of them stays within the vocabulary. -/
lemma stmts {ss : List Stmt}
    (h : ∀ s ∈ ss, StaysWithin V s.handedOver fun as => (s.fill as).within V) :
    StaysWithin V (handedOverStmts ss) fun as => stmtsWithin V (fillStmts ss as) := by
  induction ss with
  | nil =>
    simp only [handedOverStmts, fillStmts, stmtsWithin]
    exact nil
  | cons s ss ih =>
    rw [List.forall_mem_cons] at h
    simp only [handedOverStmts, fillStmts, stmtsWithin]
    exact h.1.both (ih h.2)

/-- The expressions of a list, if each of them stays within the vocabulary. -/
lemma exprs {es : List Expr}
    (h : ∀ e ∈ es, StaysWithin V e.handedOver fun as => (e.fill as).within V) :
    StaysWithin V (handedOverExprs es) fun as => exprsWithin V (fillExprs es as) := by
  induction es with
  | nil =>
    simp only [handedOverExprs, fillExprs, exprsWithin]
    exact nil
  | cons e es ih =>
    rw [List.forall_mem_cons] at h
    simp only [handedOverExprs, fillExprs, exprsWithin]
    exact h.1.both (ih h.2)

/-- Entries, if each key and each value stays within the vocabulary. -/
lemma entries {entries : List (Expr × Expr)}
    (h : ∀ e ∈ entries, (StaysWithin V e.1.handedOver fun as => (e.1.fill as).within V) ∧
      StaysWithin V e.2.handedOver fun as => (e.2.fill as).within V) :
    StaysWithin V (handedOverEntries entries) fun as =>
      entriesWithin V (fillEntries entries as) := by
  induction entries with
  | nil =>
    simp only [handedOverEntries, fillEntries, entriesWithin]
    exact nil
  | cons e entries ih =>
    obtain ⟨k, v⟩ := e
    rw [List.forall_mem_cons] at h
    simp only [handedOverEntries, fillEntries, entriesWithin]
    exact h.1.1.both (h.1.2.both (ih h.2))

end StaysWithin

/-- Every expression and every statement within a vocabulary stays within it. -/
lemma staysWithin_aux :
    (∀ e : Expr, e.within V → StaysWithin V e.handedOver fun as => (e.fill as).within V) ∧
      ∀ s : Stmt, s.within V → StaysWithin V s.handedOver fun as => (s.fill as).within V := by
  apply Expr.induction
  case ident | int | bool | str =>
    intro a he
    simp only [Expr.handedOver, Expr.fill]
    exact .single he
  case call =>
    intro f args _ _ he
    simp only [Expr.handedOver, Expr.fill]
    exact .single he
  case macroLit =>
    intro params body _ he
    simp only [Expr.handedOver, Expr.fill]
    exact .single he
  case unary =>
    intro op e ih he
    rw [Expr.within] at he
    simp only [Expr.handedOver, Expr.fill, Expr.within]
    exact ih he
  case binary =>
    intro op l r ihl ihr he
    rw [Expr.within, Bool.and_eq_true] at he
    simp only [Expr.handedOver, Expr.fill, Expr.within]
    exact (ihl he.1).both (ihr he.2)
  case cond =>
    intro c yes no ihc ihyes ihno he
    cases no with
    | none =>
      rw [Expr.within, Bool.and_eq_true, stmtsWithin_iff] at he
      simp only [Expr.handedOver, Expr.fill, Expr.within]
      exact (ihc he.1).both (.stmts fun s hs => ihyes s hs (he.2 s hs))
    | some no =>
      rw [Expr.within, Bool.and_eq_true, Bool.and_eq_true, stmtsWithin_iff, stmtsWithin_iff] at he
      simp only [Expr.handedOver, Expr.fill, Expr.within]
      exact (ihc he.1).both (.both (.stmts fun s hs => ihyes s hs (he.2.1 s hs))
        (.stmts fun s hs => ihno no rfl s hs (he.2.2 s hs)))
  case fnLit =>
    intro params body ih he
    rw [Expr.within, Bool.and_eq_true, Bool.and_eq_true, stmtsWithin_iff] at he
    simp only [Expr.handedOver, Expr.fill, Expr.within]
    exact .beside he.1 (.beside he.2.1 (.stmts fun s hs => ih s hs (he.2.2 s hs)))
  case array =>
    intro items ih he
    rw [Expr.within, exprsWithin_iff] at he
    simp only [Expr.handedOver, Expr.fill, Expr.within]
    exact .exprs fun e hmem => ih e hmem (he e hmem)
  case hash =>
    intro entries ih he
    rw [Expr.within, entriesWithin_iff] at he
    simp only [Expr.handedOver, Expr.fill, Expr.within]
    exact .entries fun e hmem => ⟨(ih e hmem).1 (he e hmem).1, (ih e hmem).2 (he e hmem).2⟩
  case index =>
    intro b p ihb ihp he
    rw [Expr.within, Bool.and_eq_true] at he
    simp only [Expr.handedOver, Expr.fill, Expr.within]
    exact (ihb he.1).both (ihp he.2)
  case letBind =>
    intro name e ih he
    rw [Stmt.within, Bool.and_eq_true] at he
    simp only [Stmt.handedOver, Stmt.fill, Stmt.within]
    exact .beside he.1 (ih he.2)
  case ret =>
    intro value ih he
    cases value with
    | none =>
      simp only [Stmt.handedOver, Stmt.fill, Stmt.within]
      exact .nil
    | some e =>
      rw [Stmt.within] at he
      simp only [Stmt.handedOver, Stmt.fill, Stmt.within]
      exact ih e rfl he
  case expr =>
    intro e ih he
    rw [Stmt.within] at he
    simp only [Stmt.handedOver, Stmt.fill, Stmt.within]
    exact ih he

/-- **An expression within a vocabulary stays within it** when answers are filled in. -/
theorem Expr.staysWithin {e : Expr} (h : e.within V) :
    StaysWithin V e.handedOver fun as => (e.fill as).within V :=
  staysWithin_aux.1 e h

/-- **Statements within a vocabulary stay within it** when answers are filled in. -/
theorem Block.staysWithin {block : Block} (h : stmtsWithin V block) :
    StaysWithin V (handedOverStmts block) fun as => stmtsWithin V (fillStmts block as) :=
  .stmts fun s hs => staysWithin_aux.2 s (stmtsWithin_iff.mp h s hs)

/-- The argument of `unquote` is within the vocabulary of its call. -/
lemma Expr.within_unquoted {e arg : Expr} (h : e.within V) (harg : e.unquoted? = some arg) :
    arg.within V := by
  unfold Expr.unquoted? at harg
  split at harg
  · split at harg
    · cases harg
      rw [Expr.within, Bool.and_eq_true, exprsWithin_iff, List.forall_mem_singleton] at h
      exact h.2
    · cases harg
  · cases harg

/-! ## Values -/

/-- The parameters and the body of a function or macro are within a vocabulary. -/
def Closure.within (V : Vocabulary) (c : Closure) : Bool :=
  c.params.all V.names && stmtsWithin V c.body

/-- What a value contains by itself of syntax is within a vocabulary, the scope that it refers to is
one of certain scopes, and it is no function unless functions may occur. -/
def Value.Admissible (V : Vocabulary) (I : ScopeId → Prop) : Value → Prop
  | .function c => V.functions ∧ c.within V ∧ I c.scope
  | .macroFn c => c.within V ∧ I c.scope
  | .quote e => e.within V
  | _ => True

/-- A value is **clean**: all syntax inside it is within a vocabulary, and it refers to none but
certain scopes. -/
def Value.Clean (V : Vocabulary) (I : ScopeId → Prop) (v : Value) : Prop :=
  ∀ w, v.Holds w → w.Admissible V I

/-- All syntax inside a value is **within** a vocabulary, whatever scopes it refers to. -/
abbrev Value.Within (V : Vocabulary) : Value → Prop :=
  Value.Clean V fun _ => True

end

namespace Value

variable {V : Vocabulary} {I : ScopeId → Prop}

/-- Integers are clean. -/
lemma clean_int (n : Int64) : (int n).Clean V I := by rintro _ ⟨⟩; trivial

/-- Truth values are clean. -/
lemma clean_bool (b : Bool) : (bool b).Clean V I := by rintro _ ⟨⟩; trivial

/-- Strings are clean. -/
lemma clean_str (s : String) : (str s).Clean V I := by rintro _ ⟨⟩; trivial

/-- Built-in functions are clean. -/
lemma clean_builtin (b : Builtin) : (builtin b).Clean V I := by rintro _ ⟨⟩; trivial

/-- The missing value is clean. -/
lemma clean_null : null.Clean V I := by rintro _ ⟨⟩; trivial

/-- A quotation is clean if its syntax is within the vocabulary. -/
lemma clean_quote_iff {e : Expr} : (quote e).Clean V I ↔ e.within V :=
  ⟨fun h => h _ (.self _), fun h => by rintro _ ⟨⟩; exact h⟩

/-- A function is clean if functions may occur, its syntax is within the vocabulary, and its scope
is one of the scopes. -/
lemma clean_function_iff {c : Closure} :
    (function c).Clean V I ↔ V.functions ∧ c.within V ∧ I c.scope :=
  ⟨fun h => h _ (.self _), fun h => by rintro _ ⟨⟩; exact h⟩

/-- A macro is clean if its syntax is within the vocabulary and its scope is one of the scopes. -/
lemma clean_macroFn_iff {c : Closure} : (macroFn c).Clean V I ↔ c.within V ∧ I c.scope :=
  ⟨fun h => h _ (.self _), fun h => by rintro _ ⟨⟩; exact h⟩

/-- An array is clean exactly if its items are. -/
theorem clean_array_iff {items : List Value} :
    (array items).Clean V I ↔ ∀ v ∈ items, v.Clean V I := by
  refine ⟨fun h v hv w hw => h w (.item hv hw), fun h w hw => ?_⟩
  cases hw with
  | self => trivial
  | item hv hw => exact h _ hv w hw

/-- A hash is clean exactly if its values are. -/
theorem clean_hash_iff {entries : List (Key × Value)} :
    (hash entries).Clean V I ↔ ∀ e ∈ entries, e.2.Clean V I := by
  refine ⟨fun h e he w hw => h w (.value he hw), fun h w hw => ?_⟩
  cases hw with
  | self => trivial
  | @key _ e he => cases e.1 <;> trivial
  | value he hw => exact h _ he w hw

/-- A value on its way out of a function is clean exactly if what it wraps is. -/
lemma clean_returned_iff {v : Value} : (returned v).Clean V I ↔ v.Clean V I := by
  refine ⟨fun h w hw => h w (.payload hw), fun h w hw => ?_⟩
  cases hw with
  | self => trivial
  | payload hw => exact h w hw

/-- What is left of a clean value without a wrapping by `return` is clean. -/
lemma Clean.unwrapReturn {v : Value} (h : v.Clean V I) : v.unwrapReturn.Clean V I := by
  cases v with
  | returned v => exact clean_returned_iff.mp h
  | _ => exact h

/-- What is found at a place that may be missing is clean if what is there is. -/
lemma clean_getD {o : Option Value} (h : ∀ v ∈ o, v.Clean V I) : (o.getD .null).Clean V I := by
  cases o with
  | none => exact clean_null
  | some v => exact h v rfl

/-- Every value is made of everything. -/
lemma within_all (v : Value) : v.Within .all := by
  intro w _
  have closure (c : Closure) : c.within .all :=
    Bool.and_eq_true_iff.mpr ⟨List.all_eq_true.mpr fun _ _ => rfl,
      stmtsWithin_iff.mpr fun s _ => QuoteLang.within_all.2 s⟩
  cases w with
  | function c => exact ⟨rfl, closure c, trivial⟩
  | macroFn c => exact ⟨closure c, trivial⟩
  | quote e => exact QuoteLang.within_all.1 e
  | _ => trivial

/-- A value within a vocabulary is clean if it refers to none but the scopes. -/
lemma Within.clean {v : Value} (h : v.Within V) (hrefers : ∀ i, v.RefersTo i → I i) :
    v.Clean V I := by
  intro w hw
  have hadmits := h w hw
  cases w with
  | function c => exact ⟨hadmits.1, hadmits.2.1, hrefers _ ⟨c, .inl hw, rfl⟩⟩
  | macroFn c => exact ⟨hadmits.1, hrefers _ ⟨c, .inr hw, rfl⟩⟩
  | _ => exact hadmits

end Value

end QuoteLang
