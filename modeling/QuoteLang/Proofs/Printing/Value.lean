import QuoteLang.Proofs.Ensures
import QuoteLang.Proofs.Printing
import QuoteLang.Session
import QuoteLang.Value.Equality
import QuoteLang.Value.Printer

set_option relaxedAutoImplicit false
set_option autoImplicit false

/-!
# Shown values are read back

A value that consists of integers, truth values, arrays and hashes is shown as a literal of it. So a
session that takes the text of the value as a source answers the value, and stays as it is.

## Main definitions

* `Value.IsData` — the values that are shown as literals.
* `Expr.IsLiteralOf` — an expression is printed as a value is shown, and always evaluates to it.

## Main results

* `Value.IsData.exists_literal` — there is a literal of every such value.
* `Value.IsData.same_self` — such a value is equal to itself.
* `Session.run_render` — a session that takes the text of such a value answers the value.
-/

namespace QuoteLang

/-! ## Data -/

/-- A value is **data** if it is built from integers, truth values, arrays, and hashes whose keys
are integers and truth values. The smallest integer is left out: without its sign it is too large to
be read. -/
inductive Value.IsData : Value → Prop
  /-- An integer other than the smallest. -/
  | int {n : Int64} (h : n ≠ Int64.minValue) : IsData (.int n)
  /-- A truth value. -/
  | bool (b : Bool) : IsData (.bool b)
  /-- An array of data. -/
  | array {items : List Value} (h : ∀ v ∈ items, IsData v) : IsData (.array items)
  /-- A hash of data, in which no key comes twice. -/
  | hash {entries : List (Key × Value)} (hkeys : ∀ e ∈ entries, IsData e.1.toValue)
      (hvalues : ∀ e ∈ entries, IsData e.2) (hnodup : (entries.map Prod.fst).Nodup) :
      IsData (.hash entries)

/-! ## Equality -/

/-- Data is equal to itself. -/
theorem Value.IsData.same_self {v : Value} (h : v.IsData) : v.same v = true := by
  induction h with
  | int | bool =>
    rw [same]
    exact beq_self_eq_true _
  | array h ih =>
    rw [same]
    refine sameValues_of_zip rfl fun p hp => ?_
    rw [List.zip_eq_zipWith, List.zipWith_self] at hp
    obtain ⟨v, hv, rfl⟩ := List.mem_map.mp hp
    exact ih v hv
  | hash hkeys hvalues hnodup ihkeys ihvalues =>
    rw [same, beq_self_eq_true, Bool.true_and]
    exact containsAll_of_lookup fun e he => ⟨e.2, Assoc.lookup_of_mem hnodup he, ihvalues e he⟩

/-! ## Literals -/

/-- An expression is a **literal** of a value if it is printed as the value is shown, expansion
leaves it as it is, and it evaluates to the value wherever it stands. -/
structure Expr.IsLiteralOf (e : Expr) (v : Value) : Prop where
  /-- The text of the value prints the expression. -/
  printed : e.PrintedAs .free v.render
  /-- There is nothing to expand. -/
  expand (depth : Nat) (macros : ScopeId) : e.replaceM (expandAt depth macros) = pure e
  /-- Evaluation changes nothing and ends with the value. -/
  eval (deeper : Deeper) (scope : ScopeId) : e.evalWith deeper scope = pure v

/-- An entry of a hash literal consists of literals of a key and a value. -/
structure EntryLiteral (pair : Expr × Expr) (entry : Key × Value) : Prop where
  /-- The first expression is a literal of the key. -/
  key : pair.1.IsLiteralOf entry.1.toValue
  /-- The second expression is a literal of the value. -/
  value : pair.2.IsLiteralOf entry.2

section

variable {es : List Expr} {items : List Value} {pairs : List (Expr × Expr)}
  {entries : List (Key × Value)}

/-- There is nothing to expand in a list of literals. -/
lemma expand_literals (h : List.Forall₂ Expr.IsLiteralOf es items) (depth : Nat)
    (macros : ScopeId) : replaceExprsM (expandAt depth macros) es = pure es := by
  induction h with
  | nil => rw [replaceExprsM]
  | cons he hes ih => rw [replaceExprsM, he.expand, pure_bind, ih, pure_bind]

/-- A list of literals evaluates to their values. -/
lemma evalExprs_literals (h : List.Forall₂ Expr.IsLiteralOf es items) (deeper : Deeper)
    (scope : ScopeId) : evalExprs deeper scope es = pure items := by
  induction h with
  | nil => rw [evalExprs]
  | cons he hes ih => rw [evalExprs, he.eval, pure_bind, ih, pure_bind]

/-- There is nothing to expand in entries that consist of literals. -/
lemma expand_entryLiterals (h : List.Forall₂ EntryLiteral pairs entries) (depth : Nat)
    (macros : ScopeId) : replaceEntriesM (expandAt depth macros) pairs = pure pairs := by
  induction h with
  | nil => rw [replaceEntriesM]
  | cons he hes ih =>
    rw [replaceEntriesM, he.key.expand, pure_bind, he.value.expand, pure_bind, ih, pure_bind]

/-- Entries that consist of literals are put in as they are, if their keys are new and none of them
comes twice. -/
lemma evalEntries_literals (h : List.Forall₂ EntryLiteral pairs entries) (deeper : Deeper)
    (scope : ScopeId) (before : List (Key × Value))
    (hnodup : ((before ++ entries).map Prod.fst).Nodup) :
    evalEntries deeper scope before pairs = pure (before ++ entries) := by
  -- Each key that is put in is new, so it comes last, and the next keys are new after it.
  induction h generalizing before with
  | nil => rw [evalEntries, List.append_nil]
  | @cons pair entry pairs entries he hes ih =>
    obtain ⟨key, value⟩ := entry
    have hnew : key ∉ before.map Prod.fst := by
      rw [List.map_append, List.map_cons] at hnodup
      intro hmem
      exact (List.nodup_append.mp hnodup).2.2 key hmem key List.mem_cons_self rfl
    rw [List.append_cons] at hnodup ⊢
    rw [evalEntries, he.key.eval, pure_bind]
    simp only [Value.key?_toValue]
    rw [he.value.eval, pure_bind, Assoc.put_of_notMem hnew]
    exact ih _ hnodup

end

namespace Expr.IsLiteralOf

/-- An integer that is not negative is a literal of itself. -/
lemma int {n : Int64} (h : 0 ≤ n.toInt) : IsLiteralOf (.int n) (.int n) where
  printed := .int h
  expand _ _ := by rw [replaceM, expandAt.eq_def]
  eval _ _ := by rw [evalWith]

/-- A negative integer is written as an operator before an integer. -/
lemma neg {n : Int64} (h : n.toInt < 0) (hmin : n ≠ Int64.minValue) :
    IsLiteralOf (.unary .neg (.int (-n))) (.int n) := by
  -- Only the smallest integer has a negative that does not fit into 64 bits.
  have hneg : (-n).toInt = -n.toInt := by
    have hne : n.toInt ≠ -2 ^ 63 := by
      rw [← Int64.toInt_minValue]
      exact mt Int64.toInt_inj.mp hmin
    have hlow := n.le_toInt
    rw [Int64.toInt_neg]
    exact Int.bmod_eq_of_le (by omega) (by omega)
  have hnat : 0 ≤ (-n).toInt := by omega
  refine ⟨?_, fun depth macros => ?_, fun deeper scope => ?_⟩
  · show PrintedAs .free _ (renderInt n)
    rw [renderInt_of_neg h hneg]
    exact .unary (.int hnat) (head_ne_of_forall (isDigits_renderInt hnat).2 (by decide))
  · rw [replaceM, (int hnat).expand, pure_bind]
  · rw [evalWith, (int hnat).eval, pure_bind, UnaryOp.apply, Int64.neg_neg]

/-- A truth value is a literal of itself. -/
lemma bool (b : Bool) : IsLiteralOf (.bool b) (.bool b) where
  printed := .bool b
  expand _ _ := by rw [replaceM, expandAt.eq_def]
  eval _ _ := by rw [evalWith]

/-- An array of literals is a literal of the array of their values. -/
lemma array {es : List Expr} {items : List Value} (h : List.Forall₂ IsLiteralOf es items) :
    IsLiteralOf (.array es) (.array items) where
  printed := by
    have htexts : List.Forall₂ (PrintedAs .free) es (renderValues items) := by
      rw [renderValues_eq_map, List.forall₂_map_right_iff]
      exact h.imp fun _ _ he => he.printed
    exact .array htexts
  expand depth macros := by rw [replaceM, expand_literals h, pure_bind]
  eval deeper scope := by rw [evalWith, evalExprs_literals h, pure_bind]

/-- A hash of literals is a literal of the hash of their values, if no key comes twice. -/
lemma hash {pairs : List (Expr × Expr)} {entries : List (Key × Value)}
    (h : List.Forall₂ EntryLiteral pairs entries) (hnodup : (entries.map Prod.fst).Nodup) :
    IsLiteralOf (.hash pairs) (.hash entries) where
  printed := by
    have htexts : List.Forall₂ EntryPrintedAs pairs (renderPairs entries) := by
      rw [renderPairs_eq_map, List.forall₂_map_right_iff]
      refine h.imp fun pair entry he => ?_
      have hentry := EntryPrintedAs.colon he.key.printed he.value.printed.blank
      have hcolon : ": " = ":" ++ " " := rfl
      simpa only [Key.render_toValue, hcolon, String.append_assoc] using hentry
    exact .hash htexts
  expand depth macros := by rw [replaceM, expand_entryLiterals h, pure_bind]
  eval deeper scope := by
    rw [evalWith, evalEntries_literals h deeper scope [] hnodup, List.nil_append, pure_bind]

end Expr.IsLiteralOf

/-- If every element of a list is related to something, the list is related to a list, element by
element. -/
lemma exists_forall₂ {α β : Type} {R : α → β → Prop} {bs : List β} (h : ∀ b ∈ bs, ∃ a, R a b) :
    ∃ as, List.Forall₂ R as bs := by
  induction bs with
  | nil => exact ⟨[], .nil⟩
  | cons b bs ih =>
    rw [List.forall_mem_cons] at h
    obtain ⟨a, ha⟩ := h.1
    obtain ⟨as, has⟩ := ih h.2
    exact ⟨a :: as, .cons ha has⟩

/-- **Data has literals**. -/
theorem Value.IsData.exists_literal {v : Value} (h : v.IsData) : ∃ e : Expr, e.IsLiteralOf v := by
  induction h with
  | @int n h =>
    by_cases hneg : n.toInt < 0
    · exact ⟨_, .neg hneg h⟩
    · exact ⟨_, .int (by omega)⟩
  | bool b => exact ⟨_, .bool b⟩
  | array h ih =>
    obtain ⟨es, hes⟩ := exists_forall₂ ih
    exact ⟨_, .array hes⟩
  | @hash entries hkeys hvalues hnodup ihkeys ihvalues =>
    have hpairs : ∀ entry ∈ entries, ∃ pair, EntryLiteral pair entry := by
      intro entry hentry
      obtain ⟨k, hk⟩ := ihkeys entry hentry
      obtain ⟨e, he⟩ := ihvalues entry hentry
      exact ⟨(k, e), hk, he⟩
    obtain ⟨pairs, hpairs⟩ := exists_forall₂ hpairs
    exact ⟨_, .hash hpairs hnodup⟩

/-! ## Sessions -/

/-- A program that ends with data settles on it. -/
lemma Value.IsData.settle_unwrapReturn {v : Value} (h : v.IsData) :
    Run.settle v.unwrapReturn = pure v := by
  cases h <;> rfl

namespace Session

/-- There is nothing to define and nothing to expand in a program that is a literal. -/
lemma expand_literal {e : Expr} {v : Value} (h : e.IsLiteralOf v) (depth : Nat)
    (macros : ScopeId) : expand depth macros [.expr e] = pure [.expr e] := by
  have hdefine : Program.defineMacros (ε := ExpansionFault) macros [.expr e] = pure [.expr e] := by
    simp only [Program.defineMacros, pure_bind]
  rw [expand, hdefine, pure_bind, Program.expandMacros, Block.replaceM]
  simp only [replaceStmtsM, Stmt.replaceM, h.expand, pure_bind]

/-- **Data is read back**: whatever a session has taken before, if it takes the text of a value that
is data, it answers that value, with the entries of hashes in the same order, and is left as it was.
The value is equal to itself. -/
theorem run_render {v : Value} (h : v.IsData) (depth : Nat) (s : Session) :
    s.run depth v.render = some (.ok v, s) ∧ v.same v = true := by
  obtain ⟨e, he⟩ := h.exists_literal
  have hparse : parse v.render = .ok [.expr e] := he.printed.isText.parse_eq
  have hexpand : expand depth s.macros [.expr e] s.store = .ok [.expr e] s.store := by
    rw [expand_literal he]
    rfl
  have heval : Program.eval depth [.expr e] s.globals s.store = .ok v s.store := by
    rw [Program.eval, evalStmts_expr, he.eval, pure_bind, h.settle_unwrapReturn]
    rfl
  exact ⟨run_of_eval hparse hexpand heval, h.same_self⟩

/-- A hash with a negative key, in which an array holds a negative integer and another hash. -/
def nestedData : Value :=
  .hash [(.int (-3), .array [.int (-1), .bool false, .hash []]), (.bool true, .int 7)]

/-- The value is read back from `{-3: [-1, false, {}], true: 7}`. -/
theorem run_render_nested :
    nestedData.IsData ∧
      new.run 0 "\x7b-3: [-1, false, \x7b\x7d], true: 7\x7d" = some (.ok nestedData, new) ∧
      nestedData.same nestedData = true := by
  have hempty : Value.IsData (.hash []) := .hash (by simp) (by simp) List.nodup_nil
  have hitems : Value.IsData (.array [.int (-1), .bool false, .hash []]) :=
    .array (by simpa using ⟨.int (by decide), .bool false, hempty⟩)
  have hseven : Value.IsData (.int 7) := .int (by decide)
  have hdata : nestedData.IsData :=
    .hash (by simpa using ⟨.int (by decide), .bool true⟩) (by simpa using ⟨hitems, hseven⟩)
      (by decide)
  have hrender : nestedData.render = "\x7b-3: [-1, false, \x7b\x7d], true: 7\x7d" := by
    decide +kernel
  have hrun := run_render hdata 0 new
  rw [hrender] at hrun
  exact ⟨hdata, hrun⟩

end Session

end QuoteLang
