import QuoteLang.Console

set_option relaxedAutoImplicit false
set_option autoImplicit false

/-!
# The command line

`FILE` runs a file once; without one, lines are taken from the standard input in one session. With
`-q` or `--quiet` the banner is left out.

## Main definitions

* `main` — the program.
-/

namespace QuoteLang.CommandLine

open Console

/-- How deeply calls may be nested. -/
def depthLimit : Nat := 1000000

/-- What is shown when calls are nested too deeply. -/
def tooDeepText : String := "evaluation is nested too deeply"

/-- What is found under the name of a file. A name that is there but cannot be read as a file is
taken for that of a directory. -/
def contentsOf (name : String) : IO FileContents := do
  try
    return .bytes (← IO.FS.readBinFile name)
  catch
    | .noFileOrDirectory .. => return .missing
    | _ => return .directory

/-- Shows a report, and answers its exit code. -/
def showReport (r : Report) : IO UInt32 := do
  IO.print r.stdout
  IO.eprint r.stderr
  return r.code.toUInt32

/-- Runs a file once. -/
def runNamed (name : String) : IO UInt32 := do
  match runFile depthLimit name (← contentsOf name) with
  | some r => showReport r
  | none => showReport ⟨"", tooDeepText ++ "\n", 1⟩

/-- Takes lines from the standard input until there are no more or one asks to stop. -/
partial def converseWithInput (input : IO.FS.Stream) (s : Session) : IO UInt32 := do
  let line ← input.getLine
  if line.isEmpty then
    IO.print farewell
    return 0
  else
    match react depthLimit s line.toList with
    | none =>
      IO.eprintln tooDeepText
      return 1
    | some (.stop text) =>
      IO.print text
      return 0
    | some (.goOn text s) =>
      IO.print text
      (← IO.getStdout).flush
      converseWithInput input s

end QuoteLang.CommandLine

open QuoteLang QuoteLang.CommandLine in
/-- Runs the file that is named, or takes lines from the standard input. -/
def main (args : List String) : IO UInt32 := do
  let quiet := args.any fun a => a == "-q" || a == "--quiet"
  match args.filter fun a => a != "-q" && a != "--quiet" with
  | name :: _ => runNamed name
  | [] =>
    if !quiet then IO.print Console.banner
    converseWithInput (← IO.getStdin) Session.new
