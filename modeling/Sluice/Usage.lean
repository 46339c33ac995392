import Sluice.Command.Registry

/-!
The overview of the program: how it is called, some examples, and a line for each command that the
registry holds.
-/

namespace Sluice.Usage

def programName : String := "tidepipe"

/-- The first line of a help text without the name before the dashes. -/
def summary (help : String) : String :=
  let first := (Text.lines (Text.trim help.toList)).headD []
  match Text.cutAt? " -- ".toList first with
  | some (_, rest) => String.ofList (Text.trim rest)
  | none => String.ofList (Text.trim first)

def examples : List String :=
  ["run 'exec --json \"echo [1,2,3]\" | json'",
    "run 'exec --json \"cat users.json\" | where role=admin | pick id,name | table'",
    "run --mode tool 'exec --json \"echo [1]\" | approve --prompt \"ok?\"'",
    "resume --token <token> --approve yes"]

/-- The least width of the column of command names. -/
def nameWidth : Nat := 12

def commandLine (name help : String) : String :=
  "  " ++ String.ofList (Table.pad nameWidth name.toList) ++ " " ++ summary help

/-- The overview under a program name. -/
def render (prog : String) (registry : Registry) : String :=
  textOfLines <|
    [s!"{prog} -- typed JSON command pipelines",
      "",
      "Usage:",
      s!"  {prog} run '<pipeline>'",
      s!"  {prog} run --mode tool '<pipeline>'",
      s!"  {prog} resume --token <token> --approve yes|no",
      s!"  {prog} help <command>",
      "",
      "Modes:",
      "  - human (default): commands may render directly to stdout",
      "  - tool: prints a single JSON envelope for machine integration",
      "",
      "Pipeline basics:",
      "  - Commands are piped with |",
      "  - Data is JSON-first (arrays/objects), not text-first",
      "  - Commands accept --flag value or --flag=value",
      "",
      "Examples:"] ++
    examples.map (fun e => s!"  {prog} {e}") ++
    ["",
      "Commands:"] ++
    registry.commands.map fun c => commandLine c.name c.help

end Sluice.Usage
