import Sluice.Pipeline.Basic

/-!
Pipelines as text. Every name and every word stands in single quotes, so that no character of it is
taken for anything else.
-/

namespace Sluice

/-- A text in single quotes. A single quote inside is written outside the quotes, after a
backslash. -/
def singleQuoted (s : String) : List Char :=
  '\'' :: s.toList.flatMap (fun c => if c = '\'' then ['\'', '\\', '\'', '\''] else [c]) ++ ['\'']

namespace ArgValue

/-- The words for the values of a flag. -/
def printFlag (name : String) (v : ArgValue) : List Char :=
  v.texts.flatMap fun s => [' ', '-', '-'] ++ singleQuoted name ++ '=' :: singleQuoted s

end ArgValue

namespace Invocation

/-- The words of a stage: its name, its bare words, and each value of each flag. -/
def print (stage : Invocation) : List Char :=
  singleQuoted stage.name ++
    stage.args.flatMap fun (name, v) =>
      if name = Args.bareName then v.texts.flatMap fun s => ' ' :: singleQuoted s
      else v.printFlag name

end Invocation

namespace Pipeline

def print : Pipeline → List Char
  | [] => []
  | [stage] => stage.print
  | stage :: next :: rest => stage.print ++ '|' :: print (next :: rest)

end Pipeline

end Sluice
