import Sluice.Command.Basic

/-!
`approve` puts the rest of a pipeline behind a decision. For a tool it gathers its items into one
request and halts; for a person it asks on the terminal and passes the items on after a yes.
-/

namespace Sluice.Approve

def defaultPrompt : String := "Approve?"

/-- What is asked: `--prompt`, else the bare words. -/
def prompt (args : Args) : String :=
  match args.filled? "prompt" with
  | some p => p
  | none =>
    let words := " ".intercalate args.positional
    if words.isEmpty then defaultPrompt else words

def request (prompt : String) (source : Stream) : Stream :=
  .ofProgram do
    let items ← source.collect
    pure [.request items prompt]

/-- The items of a source once a person has agreed to them. -/
def confirm (stage : Nat) (ctx : Context) (prompt : String) (source : Stream) : Stream :=
  .ofProgram do
    let items ← source.collect
    if ctx.interactive then
      let question := s!"{prompt} ({items.length} item(s))"
      let agreed : Bool ← Program.effect stage (.confirm question)
      if agreed then pure items else Program.fail (.command .notApproved)
    else Program.fail (.command .notInteractive)

end Sluice.Approve

namespace Sluice

def Command.approve : Command where
  name := "approve"
  help := textOfLines [
    "approve -- require confirmation before continuing",
    "",
    "Usage:",
    "  ... | approve --prompt \"Send these emails?\"",
    "",
    "Modes:",
    "  - human: asks on the terminal; refusing aborts the pipeline.",
    "  - tool: halts with an approval request and a resume token.",
    "    Continue with: resume --token <token> --approve yes"]
  run stage ctx args source :=
    let prompt := Approve.prompt args
    match ctx.mode with
    | .tool => .ok ⟨Approve.request prompt source, false, true⟩
    | .human => .ok (.plain (Approve.confirm stage ctx prompt source))

end Sluice
