import QuoteLang.Expr.Equality

set_option relaxedAutoImplicit false
set_option autoImplicit false

/-!
# Values

What programs compute with. A function keeps the scope it was made in by the number of that scope,
so values are plain trees although functions and scopes refer to one another.

Two kinds of values carry control rather than data: a value on its way out of a function, and an
error. A `return` yields the first, and is unwrapped where the call or the program ends.

## Main definitions

* `Builtin` — the built-in functions, with `Builtin.name` and `Builtin.arity`.
* `Key` — the values that may be keys of a hash; `Key.word?`, the word that a key is.
* `Closure` — a function or macro with the scope it was made in.
* `Value` — values; `Value.type`, `Value.truthy`, `Value.key?` and `Value.unwrapReturn`.

## Main results

* `Key.word?_int_inj`, `Key.word?_bool_inj` — words tell keys of one type apart.
* `Value.key?_eq_some` — a value has a key exactly if it is the value of that key.
-/

namespace QuoteLang

/-! ## Built-in functions -/

/-- The built-in functions. -/
inductive Builtin
  | len
  | first
  | last
  | rest
  | push
  | puts
deriving DecidableEq

namespace Builtin

/-- Every built-in function, in the order in which they are listed. -/
def all : List Builtin := [len, first, last, rest, push, puts]

/-- The name a built-in function is called by. -/
def name : Builtin → String
  | len => "len"
  | first => "first"
  | last => "last"
  | rest => "rest"
  | push => "push"
  | puts => "puts"

/-- The number of arguments a built-in function takes. -/
def arity : Builtin → Nat
  | push => 2
  | len | first | last | rest | puts => 1

/-- The built-in function of a name. -/
def ofName? (name : String) : Option Builtin :=
  all.find? (·.name == name)

/-- Each built-in function is found by its name. -/
theorem ofName?_name (b : Builtin) : ofName? b.name = some b := by
  cases b <;> decide

end Builtin

/-! ## Keys -/

/-- The values that may be keys of a hash: integers, truth values and strings. Keys of different
types are different. -/
inductive Key
  | int (n : Int64)
  | bool (b : Bool)
  | str (s : String)
deriving DecidableEq

/-- The word of 64 bits that an integer or a truth value is as a key. Negative integers are the
upper half of the words. A string is a key by its text and has none. -/
def Key.word? : Key → Option UInt64
  | int n => some n.toUInt64
  | bool b => some (if b then 1 else 0)
  | str _ => none

/-- Different integers are different words. -/
theorem Key.word?_int_inj {m n : Int64} : (int m).word? = (int n).word? ↔ m = n := by
  constructor
  · intro h
    cases m
    cases n
    simp_all [word?]
  · rintro rfl
    rfl

/-- Different truth values are different words. -/
theorem Key.word?_bool_inj {a b : Bool} : (bool a).word? = (bool b).word? ↔ a = b := by
  cases a <;> cases b <;> decide

/-! ## Values -/

/-- The number of a scope. -/
abbrev ScopeId := Nat

/-- A function or macro with the scope it was made in. No two of them that were made at different
times have the same number. -/
structure Closure where
  /-- The number that tells this function from every other. -/
  id : Nat
  /-- The names of the parameters. -/
  params : List String
  /-- The statements of the body. -/
  body : Block
  /-- The scope that the body refers to. -/
  scope : ScopeId

/-- A value. -/
inductive Value
  /-- An integer of 64 bits. -/
  | int (n : Int64)
  /-- A truth value. -/
  | bool (b : Bool)
  /-- A string. -/
  | str (s : String)
  /-- An array. -/
  | array (items : List Value)
  /-- A hash: keys with their values, in the order in which the keys were put in. -/
  | hash (entries : List (Key × Value))
  /-- A function. -/
  | function (closure : Closure)
  /-- A built-in function. -/
  | builtin (b : Builtin)
  /-- A macro. -/
  | macroFn (closure : Closure)
  /-- A value on its way out of a function. -/
  | returned (value : Value)
  /-- An error. -/
  | error (message : String)
  /-- A piece of syntax. -/
  | quote (e : Expr)
  /-- No value. -/
  | null

/-- The types of values. -/
inductive ValueType
  | int
  | bool
  | str
  | null
  | returned
  | error
  | function
  | builtin
  | array
  | hash
  | quote
  | macroFn
deriving DecidableEq

/-- The name of a type, as messages show it. -/
def ValueType.name : ValueType → String
  | int => "INTEGER"
  | bool => "BOOLEAN"
  | str => "STRING"
  | null => "NULL"
  | returned => "RETURN_VALUE"
  | error => "ERROR"
  | function => "FUNCTION"
  | builtin => "BUILTIN"
  | array => "ARRAY"
  | hash => "HASH"
  | quote => "QUOTE"
  | macroFn => "MACRO"

/-- The value that is a key. -/
def Key.toValue : Key → Value
  | int n => .int n
  | bool b => .bool b
  | str s => .str s

namespace Value

/-- The type of a value. -/
def type : Value → ValueType
  | int _ => .int
  | bool _ => .bool
  | str _ => .str
  | array _ => .array
  | hash _ => .hash
  | function _ => .function
  | builtin _ => .builtin
  | macroFn _ => .macroFn
  | returned _ => .returned
  | error _ => .error
  | quote _ => .quote
  | null => .null

/-- The truth of a value as a condition: all but `null` and `false` hold. -/
def truthy : Value → Bool
  | null | bool false => false
  | _ => true

/-- The key of a hash that a value is, if it may be one. -/
def key? : Value → Option Key
  | int n => some (.int n)
  | bool b => some (.bool b)
  | str s => some (.str s)
  | _ => none

/-- A value has a key exactly if it is the value of that key. -/
theorem key?_eq_some {v : Value} {k : Key} : v.key? = some k ↔ v = k.toValue := by
  cases v <;> cases k <;> simp [key?, Key.toValue]

/-- The value of a key has that key. -/
theorem key?_toValue (k : Key) : k.toValue.key? = some k :=
  key?_eq_some.mpr rfl

/-- Whether a value is on its way out of a function. -/
def isReturned : Value → Bool
  | returned _ => true
  | _ => false

/-- Whether a value is an error. -/
def isError : Value → Bool
  | error _ => true
  | _ => false

/-- The value of a call whose body has this value: one wrapping by `return` is undone. -/
def unwrapReturn : Value → Value
  | returned v => v
  | v => v

/-- **Induction over values**, with a hypothesis for every item of an array and every value of a
hash. -/
theorem induction {P : Value → Prop} (int : ∀ n, P (.int n)) (bool : ∀ b, P (.bool b))
    (str : ∀ s, P (.str s)) (array : ∀ items, (∀ v ∈ items, P v) → P (.array items))
    (hash : ∀ entries, (∀ e ∈ entries, P e.2) → P (.hash entries))
    (function : ∀ c, P (.function c)) (builtin : ∀ b, P (.builtin b))
    (macroFn : ∀ c, P (.macroFn c)) (returned : ∀ v, P v → P (.returned v))
    (error : ∀ m, P (.error m)) (quote : ∀ e, P (.quote e)) (null : P .null) : ∀ v, P v := by
  have hcons {α : Type} {R : α → Prop} (head : α) (tail : List α) (hh : R head)
      (ht : ∀ a ∈ tail, R a) : ∀ a ∈ head :: tail, R a := by
    intro a ha
    rcases List.mem_cons.mp ha with rfl | ha
    · exact hh
    · exact ht a ha
  intro v
  exact Value.rec (motive_1 := P) (motive_2 := fun l => ∀ v ∈ l, P v)
    (motive_3 := fun l => ∀ e ∈ l, P e.2) (motive_4 := fun e => P e.2) int bool str array hash
    function builtin macroFn returned error quote null (by simp) hcons (by simp) hcons
    (fun _ _ h => h) v

end Value

end QuoteLang
