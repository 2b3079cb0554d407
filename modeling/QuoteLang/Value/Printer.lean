import QuoteLang.Value
import QuoteLang.Expr.Printer

set_option relaxedAutoImplicit false
set_option autoImplicit false

/-!
# Printing values

The text of a value as the console and `puts` show it.

## Main definitions

* `Key.render`, `Value.render` — the texts of keys and values.

## Main results

* `Key.render_toValue` — a key is shown like the value it is.
* `Value.render_array`, `Value.render_hash` — arrays and hashes are shown as what they contain.
-/

namespace QuoteLang

/-- The text of a key. -/
def Key.render : Key → String
  | int n => renderInt n
  | bool b => renderBool b
  | str s => s

/-- The text of a function or macro, after the word that introduces it. -/
def Closure.render (word : String) (c : Closure) : String :=
  word ++ "(" ++ renderList c.params ++ ") \x7b\n" ++ Block.render c.body ++ "\n\x7d"

mutual

/-- The text of a value. A value on its way out of a function is shown as itself. -/
def Value.render : Value → String
  | .int n => renderInt n
  | .bool b => renderBool b
  | .str s => s
  | .array items => "[" ++ renderList (renderValues items) ++ "]"
  | .hash entries => "\x7b" ++ renderList (renderPairs entries) ++ "\x7d"
  | .function c => c.render "fn"
  | .builtin b => "builtin function " ++ b.name
  | .macroFn c => c.render "macro"
  | .returned v => v.render
  | .error message => "ERROR: " ++ message
  | .quote e => "QUOTE(" ++ e.render ++ ")"
  | .null => "null"

/-- The texts of the values of a list. -/
def renderValues : List Value → List String
  | [] => []
  | v :: rest => v.render :: renderValues rest

/-- The texts of the entries of a hash: the key, a colon, a space and the value. -/
def renderPairs : List (Key × Value) → List String
  | [] => []
  | (key, value) :: rest => (key.render ++ ": " ++ value.render) :: renderPairs rest

end

/-- A key is shown like the value it is. -/
theorem Key.render_toValue (k : Key) : k.toValue.render = k.render := by
  cases k <;> rfl

/-- The texts of the values of a list, one by one. -/
theorem renderValues_eq_map (items : List Value) : renderValues items = items.map Value.render := by
  induction items with
  | nil => rw [renderValues, List.map_nil]
  | cons v rest ih => rw [renderValues, ih, List.map_cons]

/-- The texts of the entries of a hash, one by one. -/
theorem renderPairs_eq_map (entries : List (Key × Value)) :
    renderPairs entries = entries.map fun e => e.1.render ++ ": " ++ e.2.render := by
  induction entries with
  | nil => rw [renderPairs, List.map_nil]
  | cons e rest ih => rw [renderPairs, ih, List.map_cons]

/-- An array is shown as its items between brackets. -/
theorem Value.render_array (items : List Value) :
    (array items).render = "[" ++ renderList (items.map render) ++ "]" :=
  congrArg (fun texts => "[" ++ renderList texts ++ "]") (renderValues_eq_map items)

/-- A hash is shown as its entries between braces. -/
theorem Value.render_hash (entries : List (Key × Value)) :
    (hash entries).render =
      "\x7b" ++ renderList (entries.map fun e => e.1.render ++ ": " ++ e.2.render) ++ "\x7d" :=
  congrArg (fun texts => "\x7b" ++ renderList texts ++ "\x7d") (renderPairs_eq_map entries)

end QuoteLang
