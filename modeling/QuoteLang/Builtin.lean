import QuoteLang.Run
import QuoteLang.Value.Printer

set_option relaxedAutoImplicit false
set_option autoImplicit false

/-!
# Built-in functions

What the built-in functions do. The number of arguments is checked before anything else.

## Main definitions

* `Builtin.call` — calls a built-in function.

## Main results

* `Builtin.call_of_length_ne` — a call with the wrong number of arguments ends with a fault.
-/

namespace QuoteLang

namespace Builtin

/-- The items of an argument that has to be an array. -/
def itemsOf (b : Builtin) : Value → Run Fault (List Value)
  | .array items => return items
  | v => Run.raise (.noArray b v.type)

/-- The length of a string in characters, or of an array in items. -/
def lengthOf : Value → Run Fault Value
  | .str s => return .int (Int64.ofNat s.length)
  | .array items => return .int (Int64.ofNat items.length)
  | v => Run.raise (.noLength v.type)

/-- Calls a built-in function. The first and the last item of an empty array are `null`, and the
rest of it is empty; `puts` writes the text of its argument on a line. -/
def call (b : Builtin) (args : List Value) : Run Fault Value :=
  match b, args with
  | len, [v] => lengthOf v
  | first, [v] => do
    let items ← itemsOf first v
    return items.head?.getD .null
  | last, [v] => do
    let items ← itemsOf last v
    return items.getLast?.getD .null
  | rest, [v] => do
    let items ← itemsOf rest v
    return .array (items.drop 1)
  | push, [v, item] => do
    let items ← itemsOf push v
    return .array (items ++ [item])
  | puts, [v] => do
    Run.update (·.write v.render)
    return .null
  | b, args => Run.raise (.argumentCount args.length b.arity)

/-- A call with the wrong number of arguments ends with a fault and does nothing else. -/
theorem call_of_length_ne {b : Builtin} {args : List Value} (h : args.length ≠ b.arity) :
    b.call args = Run.raise (.argumentCount args.length b.arity) := by
  unfold call
  split <;> simp_all [arity]

end Builtin

end QuoteLang
