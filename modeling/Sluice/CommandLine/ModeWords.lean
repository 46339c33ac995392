import Sluice.Command.Basic
import Sluice.Text.Quoted

/-!
The mode among the words of a pipeline. It may stand anywhere, as one word or as two, and the last
one counts.
-/

namespace Sluice.CommandLine

/-- Why the mode of a pipeline cannot be told. -/
inductive ModeError where
  | missingValue
  | notAMode (value : String)
  deriving DecidableEq

def modeOption : String := "--mode"

/-- The start of a word that holds the mode after an equals sign. -/
def modeStart : List Char := "--mode=".toList

def mode? : String → Option Mode
  | "human" => some .human
  | "tool" => some .tool
  | _ => none

/-- The last mode named among some words, or the one given before them, and the other words. The
word after `--mode` is its value whatever it looks like. -/
def splitMode (mode : String) : List String → Except ModeError (String × List String)
  | [] => .ok (mode, [])
  | word :: rest =>
    if word = modeOption then
      match rest with
      | [] => .error .missingValue
      | value :: after => splitMode value after
    else if modeStart.isPrefixOf word.toList then
      splitMode (String.ofList (word.toList.drop modeStart.length)) rest
    else (splitMode mode rest).map fun (mode, words) => (mode, word :: words)

/-- The mode of a pipeline's words and the other words, if the mode is one there is. -/
def stripMode (mode : String) (words : List String) : Except ModeError (Mode × List String) :=
  match splitMode mode words with
  | .error e => .error e
  | .ok (name, rest) =>
    match mode? name with
    | some m => .ok (m, rest)
    | none => .error (.notAMode name)

def ModeError.message : ModeError → String
  | .missingValue => s!"Invalid value for '{modeOption}': requires a value"
  | .notAMode value =>
    s!"Invalid value for '{modeOption}': {quote value} is not one of 'human', 'tool'."

end Sluice.CommandLine
