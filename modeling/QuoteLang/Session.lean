import QuoteLang.Parse
import QuoteLang.Expansion

set_option relaxedAutoImplicit false
set_option autoImplicit false

/-!
# Sessions

A session takes one source text after the other. What a text binds at its top level, and the macros
it defines, can be used by the texts after it.

## Main definitions

* `HostError` — the failures that leave a text without a value.
* `Session` — a store with the scope of programs and the scope of macros.
* `Session.run` — reads a text, defines and expands its macros, and evaluates it.

## Main results

* `Session.run_of_parse_error` — a text that is no program leaves the session as it is.
* `Session.run_of_expansion_fault` — a text whose expansion fails answers the failure.
* `Session.run_of_eval` — a text that is evaluated answers the value of its program.
-/

namespace QuoteLang

/-- The failures that leave a text without a value. Errors of evaluation are values and do not
belong here. -/
inductive HostError
  /-- The text is not a program. -/
  | parse (e : ParseError)
  /-- The expansion of its macros fails. -/
  | expansion (f : ExpansionFault)
  /-- The text cannot be read. -/
  | io (message : String)

/-- The report of a failure. -/
def HostError.render : HostError → String
  | parse e => e.render
  | expansion f => "MacroError: " ++ f.message
  | io message => "IoError: " ++ message

/-- A store together with the two scopes that source texts use. -/
structure Session where
  /-- Everything made, bound and written so far. -/
  store : Store
  /-- The scope in which programs are evaluated. -/
  globals : ScopeId
  /-- The scope in which macros are bound. -/
  macros : ScopeId

namespace Session

/-- A session before its first text. -/
def new : Session :=
  let (globals, st) := Store.empty.newGlobal
  let (macros, st) := st.newGlobal
  ⟨st, globals, macros⟩

/-- Takes away the text written so far. -/
def takeOutput (s : Session) : String × Session :=
  (s.store.takeOutput.1, { s with store := s.store.takeOutput.2 })

/-- The names that are bound in the scope of programs with their values, sorted by name. -/
def bindings (s : Session) : List (String × Value) :=
  s.store.visible s.globals

/-- The names of the macros, sorted. -/
def macroNames (s : Session) : List String :=
  (s.store.visible s.macros).map Prod.fst

/-- The expansion of a program: its macros are defined, and then calls of macros are replaced. -/
def expand (depth : Nat) (macros : ScopeId) (program : Program) : Run ExpansionFault Program := do
  let program ← program.defineMacros macros
  program.expandMacros depth macros

/-- Takes one source text: reads it, defines its macros, expands it, and evaluates what is left. The
answer is missing if calls are nested more deeply than `depth`. -/
def run (depth : Nat) (source : String) (s : Session) :
    Option (Except HostError Value × Session) :=
  match parse source with
  | .error e => some (.error (.parse e), s)
  | .ok program =>
    match expand depth s.macros program s.store with
    | .tooDeep => none
    | .fault f st => some (.error (.expansion f), { s with store := st })
    | .ok program st =>
      (program.eval depth s.globals st).value?.map fun (v, st) => (.ok v, { s with store := st })

/-- A text that is no program leaves the session as it is. -/
theorem run_of_parse_error {depth : Nat} {source : String} {s : Session} {e : ParseError}
    (h : parse source = .error e) : s.run depth source = some (.error (.parse e), s) := by
  simp [run, h]

/-- A text whose expansion fails answers the failure. Its macros have been defined. -/
theorem run_of_expansion_fault {depth : Nat} {source : String} {s : Session} {program : Program}
    {f : ExpansionFault} {st : Store} (hparse : parse source = .ok program)
    (hexpand : expand depth s.macros program s.store = .fault f st) :
    s.run depth source = some (.error (.expansion f), { s with store := st }) := by
  rw [run, hparse]
  simp only [hexpand]

/-- A text that is read, expanded and evaluated answers the value of the program that is left. -/
theorem run_of_eval {depth : Nat} {source : String} {s : Session} {program program' : Program}
    {st st' : Store} {v : Value} (hparse : parse source = .ok program)
    (hexpand : expand depth s.macros program s.store = .ok program' st)
    (heval : program'.eval depth s.globals st = .ok v st') :
    s.run depth source = some (.ok v, { s with store := st' }) := by
  rw [run, hparse]
  simp only [hexpand, heval]
  rfl

end Session

end QuoteLang
