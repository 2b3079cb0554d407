import QuoteLang.Eval

set_option relaxedAutoImplicit false
set_option autoImplicit false

/-!
# Macro expansion

Macros run between reading and evaluating. The macros that a program defines at its top level are
taken out of it and bound in a scope of their own; then every call of one of them is replaced by the
syntax that its body quotes. The arguments are handed to the body as they stand, each as a
quotation.

## Main definitions

* `ExpansionFault` — why an expansion fails, with the wording `ExpansionFault.message`.
* `Program.defineMacros` — takes the macros out of a program and binds them.
* `expandCall` — the syntax that stands for a call of a macro.
* `Program.expandMacros` — replaces every call of a macro that is handed over.
-/

namespace QuoteLang

/-- Why an expansion fails. -/
inductive ExpansionFault
  /-- A macro is called with the wrong number of arguments. -/
  | argumentCount (name : String) (got want : Nat)
  /-- The body of a macro ends with an error. -/
  | failed (name message : String)
  /-- The body of a macro ends with a value that is no quotation. -/
  | noQuote (name : String) (value : ValueType)

/-- The wording of a failed expansion. -/
def ExpansionFault.message : ExpansionFault → String
  | argumentCount name got want =>
    "wrong number of arguments to macro `" ++ name ++ "`. got=" ++ toString got ++ ", want=" ++
      toString want
  | failed name message => "macro `" ++ name ++ "` failed: " ++ message
  | noQuote name value => "macro `" ++ name ++ "` must return a quote, got " ++ value.name

/-! ## Definitions -/

/-- Takes the macros that a program defines at its top level out of it, and binds them in a scope,
which is also the scope that their bodies refer to. -/
def Program.defineMacros {ε : Type} (macros : ScopeId) : Program → Run ε Program
  | [] => return []
  | .letBind name (.macroLit params body) :: rest => do
    let c ← Run.make (·.newClosure params body macros)
    Run.update (·.bind macros name (.macroFn c))
    Program.defineMacros macros rest
  | s :: rest => do
    let rest ← Program.defineMacros macros rest
    return s :: rest

/-! ## Expansion -/

/-- The syntax that stands for a call of a macro: what its body quotes, with the parameters bound to
the arguments as they stand. -/
def expandCall (depth : Nat) (name : String) (c : Closure) (args : List Expr) :
    Run ExpansionFault Expr :=
  if args.length = c.params.length then do
    match ← Run.attempt (bodyValue (evalBlock depth) c (args.map .quote)) with
    | .ok (.quote e) => return e
    | .ok v => Run.raise (.noQuote name v.type)
    | .error f => Run.raise (.failed name f.message)
  else Run.raise (.argumentCount name args.length c.params.length)

/-- What stands for an expression after expansion: the expansion if it is a call of a name that is
bound to a macro, and the expression itself otherwise. -/
def expandAt (depth : Nat) (macros : ScopeId) (e : Expr) : Run ExpansionFault Expr :=
  match e with
  | .call (.ident name) args => do
    match ← Run.get (·.lookup macros name) with
    | some (.macroFn c) => expandCall depth name c args
    | _ => return .call (.ident name) args
  | e => return e

/-- Replaces every call of a macro that is handed over. What stands for a call is not searched
again. -/
def Program.expandMacros (depth : Nat) (macros : ScopeId) (program : Program) :
    Run ExpansionFault Program :=
  Block.replaceM (expandAt depth macros) program

end QuoteLang
