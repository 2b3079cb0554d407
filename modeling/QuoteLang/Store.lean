import QuoteLang.Assoc
import QuoteLang.Value

set_option relaxedAutoImplicit false
set_option autoImplicit false

/-!
# Scopes

The scopes of a run and what else a run leaves behind. Scopes are numbered in the order in which
they are made. A scope may have an outer scope, which is always an older one, so that looking up a
name comes to an end although functions and scopes may refer to one another in circles.

## Main definitions

* `Scope` — the names bound in one scope, and the outer scope.
* `Store` — all scopes, the number of functions made so far, and the text written so far.
* `Store.newGlobal`, `Store.enclose` — make a scope without and with an outer scope.
* `Store.bind`, `Store.bindAll` — bind names in a scope.
* `Store.lookup` — the value of a name, in the nearest scope that binds it.
* `Store.visible` — all names with their values, sorted by name.

## Main results

* `Store.lookup_eq` — the lookup asks the scope itself and then its outer scope.
-/

namespace QuoteLang

/-- The names bound in one scope, and the outer scope if there is one. -/
structure Scope where
  /-- The names with their values. -/
  bindings : List (String × Value)
  /-- The scope where names are looked for that are not bound here. -/
  outer : Option ScopeId

/-- What a run leaves behind. -/
structure Store where
  /-- Every scope made so far; its number is its place. -/
  scopes : Array Scope
  /-- The number of functions and macros made so far. -/
  closures : Nat
  /-- The text written so far. -/
  output : String

namespace Store

/-- The store in which nothing has been made or written. -/
def empty : Store := ⟨#[], 0, ""⟩

/-! ## Making scopes and functions -/

/-- Makes a scope. -/
def newScope (st : Store) (outer : Option ScopeId) : ScopeId × Store :=
  (st.scopes.size, { st with scopes := st.scopes.push ⟨[], outer⟩ })

/-- Makes a scope without an outer scope. -/
def newGlobal (st : Store) : ScopeId × Store :=
  st.newScope none

/-- Makes a scope inside another. -/
def enclose (st : Store) (outer : ScopeId) : ScopeId × Store :=
  st.newScope (some outer)

/-- Makes a function or macro that refers to a scope. -/
def newClosure (st : Store) (params : List String) (body : Block) (scope : ScopeId) :
    Closure × Store :=
  (⟨st.closures, params, body, scope⟩, { st with closures := st.closures + 1 })

/-- Writes a line of text. -/
def write (st : Store) (line : String) : Store :=
  { st with output := st.output ++ line ++ "\n" }

/-- Takes away the text written so far. -/
def takeOutput (st : Store) : String × Store :=
  (st.output, { st with output := "" })

/-! ## Names -/

/-- Binds a name in a scope. Other scopes stay as they are. -/
def bind (st : Store) (scope : ScopeId) (name : String) (value : Value) : Store :=
  { st with
    scopes := st.scopes.modify scope fun s =>
      { s with bindings := Assoc.put name value s.bindings } }

/-- Binds several names in a scope, one after the other. -/
def bindAll (st : Store) (scope : ScopeId) (pairs : List (String × Value)) : Store :=
  pairs.foldl (fun st p => st.bind scope p.1 p.2) st

/-- The value of a name in the nearest scope that binds it: the scope itself, or else the nearest
one around it. -/
def lookup (st : Store) (scope : ScopeId) (name : String) : Option Value :=
  match st.scopes[scope]? with
  | none => none
  | some s =>
    match s.bindings.lookup name with
    | some value => some value
    | none =>
      match s.outer with
      | none => none
      | some outer => if outer < scope then st.lookup outer name else none
termination_by scope

/-- The names that can be seen from a scope with their values, sorted by name. A name that is bound
in several scopes has the value of the nearest. -/
def visible (st : Store) (scope : ScopeId) : List (String × Value) :=
  match st.scopes[scope]? with
  | none => []
  | some s =>
    let around :=
      match s.outer with
      | none => []
      | some outer => if outer < scope then st.visible outer else []
    s.bindings.foldl (fun acc p => Assoc.putSorted p.1 p.2 acc) around
termination_by scope

/-- The lookup asks the scope itself, and then its outer scope. -/
theorem lookup_eq {st : Store} {scope : ScopeId} {s : Scope} (hs : st.scopes[scope]? = some s)
    (hlt : ∀ o, s.outer = some o → o < scope) (name : String) :
    st.lookup scope name =
      (s.bindings.lookup name).or (s.outer.bind fun o => st.lookup o name) := by
  rw [lookup, hs]
  simp only
  cases hb : s.bindings.lookup name with
  | some value => simp
  | none =>
    cases ho : s.outer with
    | none => simp
    | some o => simp [hlt o ho]

end Store

end QuoteLang
