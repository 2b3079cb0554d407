import QuoteLang.Session
import QuoteLang.Text.Blank

set_option relaxedAutoImplicit false
set_option autoImplicit false

/-!
# The console

What the program shows: for a whole file that is run once, and for lines that are taken one after
the other in one session. A line is a command if it starts with a colon and is known, and a source
text otherwise; white space around it is ignored, and so are empty lines.

## Main definitions

* `FileContents`, `fileSource` — the source text in a file, or why there is none.
* `Report`, `runFile` — what is shown for a file, and the exit code.
* `Command`, `Command.ofLine?` — what a line asks for.
* `Reaction`, `react` — what is shown for a line, and whether more lines are taken.
* `transcript` — all that is shown for an input.
-/

namespace QuoteLang.Console

/-! ## Running a file -/

/-- What is found under the name of a file. -/
inductive FileContents
  /-- Nothing. -/
  | missing
  /-- A directory. -/
  | directory
  /-- A file with these bytes. -/
  | bytes (contents : ByteArray)

/-- The source text in a file, or why there is none. -/
def fileSource (name : String) (contents : FileContents) : Except HostError String :=
  let failure (reason : String) := HostError.io ("failed to read " ++ name ++ ": " ++ reason)
  match contents with
  | .missing => .error (failure "No such file or directory (os error 2)")
  | .directory => .error (failure "Is a directory (os error 21)")
  | .bytes contents =>
    match String.fromUTF8? contents with
    | some source => .ok source
    | none => .error (failure "stream did not contain valid UTF-8")

/-- What a run shows, and the exit code it ends with. -/
structure Report where
  /-- The text on the standard output. -/
  stdout : String
  /-- The text on the standard error output. -/
  stderr : String
  /-- The exit code. -/
  code : Nat

/-- What is shown for the answer to a source text. Errors of every kind go to the error output and
make the exit code one. -/
def Report.ofAnswer (written : String) : Except HostError Value → Report
  | .error e => ⟨written, e.render ++ "\n", 1⟩
  | .ok v =>
    if v.isError then ⟨written, v.render ++ "\n", 1⟩ else ⟨written ++ v.render ++ "\n", "", 0⟩

/-- Runs a whole file once. -/
def runFile (depth : Nat) (name : String) (contents : FileContents) : Option Report :=
  match fileSource name contents with
  | .error e => some (.ofAnswer "" (.error e))
  | .ok source =>
    (Session.new.run depth source).map fun (answer, s) => .ofAnswer s.takeOutput.1 answer

/-! ## Texts -/

/-- What is shown before the first line. -/
def banner : String :=
  "Monkey programming language\n" ++
  "Enter expressions like: let add = fn(a, b) \x7b a + b \x7d; add(1, 2)\n" ++
  "Type :help for more commands, or Ctrl+C to exit.\n\n"

/-- What is shown when no more lines are taken. -/
def farewell : String :=
  "Goodbye!\n"

/-- What is shown for the command `:help`. -/
def helpText : String :=
  "Monkey REPL commands:\n" ++
  "  :help      - Show this help message\n" ++
  "  :env       - Show current environment bindings\n" ++
  "  :quit      - Exit the interpreter\n" ++
  "  :exit      - Exit the interpreter\n" ++
  "  Ctrl+C     - Exit the interpreter\n" ++
  "\n" ++
  "Language:\n" ++
  "  Values: 42, true, \"text\", [1, 2], \x7b\"key\": 1\x7d\n" ++
  "  Bindings: let x = 5;\n" ++
  "  Functions: let add = fn(a, b) \x7b a + b \x7d; add(1, 2)\n" ++
  "  Conditionals: if (x > 1) \x7b \"big\" \x7d else \x7b \"small\" \x7d\n" ++
  "  Macros: let unless = macro(c, t, f) \x7b quote(if (!(unquote(c))) \x7b unquote(t) \x7d " ++
    "else \x7b unquote(f) \x7d) \x7d;\n" ++
  "\n" ++
  "Every line is evaluated in the same session, so bindings and macros persist.\n\n"

/-- A heading with the number of names below it, and the names on a line. -/
def nameLines (heading : String) (names : List String) : String :=
  heading ++ " (" ++ toString names.length ++ "):\n  " ++ String.intercalate "  " names ++ "\n\n"

/-- What is shown for the command `:env`: the built-in functions, the macros if there are any, and
the names that are bound. -/
def environmentText (s : Session) : String :=
  let macros := s.macroNames
  let bindings := s.bindings
  nameLines "Built-in functions" (Builtin.all.map Builtin.name) ++
    (if macros.isEmpty then "" else nameLines "Macros" macros) ++
    (if bindings.isEmpty then "No user-defined values.\n"
      else "User-defined values (" ++ toString bindings.length ++ "):\n" ++
        String.join (bindings.map fun (name, v) => "  " ++ name ++ " = " ++ v.render ++ "\n"))

/-! ## Taking lines -/

/-- What a line asks for. -/
inductive Command
  | help
  | environment
  | quit
  | source (text : String)
deriving DecidableEq

/-- What a line asks for, if it is not empty. White space around it is ignored. -/
def Command.ofLine? (line : List Char) : Option Command :=
  let text := Text.trimWhite line
  if text.isEmpty then none
  else
    match String.ofList text with
    | ":help" => some help
    | ":env" => some environment
    | ":quit" | ":exit" => some quit
    | other => some (.source other)

/-- What is shown for the answer to a line. -/
def answerText : Except HostError Value → String
  | .ok v => v.render
  | .error e => e.render

/-- What a line leads to. -/
inductive Reaction
  /-- A text is shown, and more lines are taken. -/
  | goOn (text : String) (s : Session)
  /-- A text is shown, and no more lines are taken. -/
  | stop (text : String)

/-- What a line leads to. The text that a source text writes is shown before its answer. -/
def react (depth : Nat) (s : Session) (line : List Char) : Option Reaction :=
  match Command.ofLine? line with
  | none => some (.goOn "" s)
  | some .help => some (.goOn helpText s)
  | some .environment => some (.goOn (environmentText s) s)
  | some .quit => some (.stop farewell)
  | some (.source text) =>
    (s.run depth text).map fun (answer, s) =>
      .goOn (s.takeOutput.1 ++ answerText answer ++ "\n") s.takeOutput.2

/-- All that is shown for the lines of an input, one after the other in one session. -/
def converse (depth : Nat) (s : Session) : List (List Char) → Option String
  | [] => some farewell
  | line :: rest =>
    match react depth s line with
    | none => none
    | some (.stop text) => some text
    | some (.goOn text s) => (converse depth s rest).map (text ++ ·)

/-- The lines of an input. Each ends at a line feed; what follows the last line feed is a line if it
is not empty. -/
def linesOf : List Char → List (List Char)
  | [] => []
  | c :: cs =>
    if c = '\n' then [] :: linesOf cs
    else
      match linesOf cs with
      | [] => [[c]]
      | line :: rest => (c :: line) :: rest

/-- All that is shown for an input. The banner is left out if `quiet` holds. -/
def transcript (depth : Nat) (quiet : Bool) (input : String) : Option Report :=
  (converse depth Session.new (linesOf input.toList)).map fun text =>
    ⟨(if quiet then "" else banner) ++ text, "", 0⟩

end QuoteLang.Console
