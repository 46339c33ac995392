import Sluice.Command.Basic
import Sluice.Text.Utf8

/-!
`exec` runs a shell command. Its source is pulled to the end and dropped, then the subprocess is
started, and its output becomes items: a text for each line that is not blank, or parsed JSON.
-/

namespace Sluice.Exec

/-- The words that make `--json` a switch instead of the first word of the command. -/
def switchWords : List String :=
  ["true", "false", "1", "0", "yes", "no"]

/-- Whether the output is JSON, and the words of the command. A value of `--json` that is no switch
word was meant as the first word. -/
def commandWords (args : Args) : Bool × List String :=
  match args.flag? "json" with
  | none => (false, args.positional)
  | some raw =>
    if switchWords.any fun w => Args.isWord w raw then (args.enabled "json", args.positional)
    else (true, raw :: args.positional)

/-- How much of a diagnostic output is shown. -/
def previewLength : Nat := 400

/-- The items of an output that is JSON. An output of blanks has none. -/
def jsonItems (output : List Char) : Except Failure (List Item) :=
  let text := Text.trim output
  if text.isEmpty then .ok []
  else
    match Json.read text with
    | .ok j => .ok j.items
    | .error e => .error (e.toFailure fun fault line => .command (.outputNotJson fault line))

def lineItems (output : List Char) : List Item :=
  ((Text.lines output).filter fun line => !Text.isBlankText line).map fun line =>
    .value (.str (String.ofList line))

/-- The items of a finished subprocess, or why it failed. -/
def items (limit : Option Binary64) (command : String) (asJson : Bool) :
    ProcessResult → Except Failure (List Item)
  | .timedOut => refuse (.timedOut limit command)
  | .finished stdout stderr exit =>
    if exit ≠ 0 then
      let shown := (Text.trim (Utf8.decodeLossy stderr)).take previewLength
      refuse (.exited exit (if shown.isEmpty then command else String.ofList shown))
    else if asJson then jsonItems (Utf8.decodeLossy stdout)
    else .ok (lineItems (Utf8.decodeLossy stdout))

/-- The environment of a subprocess: none of its own where the context has none. -/
def environment (ctx : Context) : Option Environment :=
  if ctx.env.isEmpty then none else some ctx.env

def stream (limit : Option Binary64) (stage : Nat) (ctx : Context) (command : String)
    (asJson : Bool) (source : Stream) : Stream :=
  .ofProgram do
    let _ ← source.collect
    let result ← Program.effect stage (.spawn command (environment ctx))
    Program.ofExcept (items limit command asJson result)

end Sluice.Exec

namespace Sluice

/-- The command `exec`, with a time limit for its subprocesses. -/
def Command.exec (limit : Option Binary64) : Command where
  name := "exec"
  help := textOfLines [
    "exec -- run a shell command and emit its output",
    "",
    "Usage:",
    "  exec \"<command>\"",
    "  exec --json \"<command>\"",
    "",
    "Notes:",
    "  - Without --json, each non-empty stdout line becomes a string item.",
    "  - With --json, stdout is parsed as JSON; an array becomes one item per element.",
    "  - Upstream input is consumed and discarded."]
  run stage ctx args source :=
    let (asJson, words) := Exec.commandWords args
    if words.isEmpty then refuse .noCommandLine
    else .ok (.plain (Exec.stream limit stage ctx (" ".intercalate words) asJson source))

end Sluice
