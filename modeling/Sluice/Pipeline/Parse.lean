import Sluice.Pipeline.Basic
import Sluice.Pipeline.Lexeme
import Sluice.Text.Quoted

/-!
Pipelines from text. The words of a segment are a command name, flags with their values and bare
words; flags and bare words are collected by name.
-/

namespace Sluice

def SyntaxError.message : SyntaxError → String
  | .unterminatedQuote q position => s!"Unterminated {q} quote starting at position {position}"
  | .danglingEscape => "Dangling escape character at end of pipeline"
  | .leadingBar => "Pipeline cannot start with '|'"
  | .trailingBar => "Pipeline cannot end with '|'"
  | .emptyStage index => s!"Empty stage at position {index} (no command between pipes)"
  | .flagAsName index text =>
    s!"Stage {index} starts with flag {quote text} instead of a command name"
  | .emptyName index => s!"Stage {index} has an empty command name"
  | .invalidFlag text => s!"Invalid flag {quote text}"

namespace Word

/-- The word that makes all words after it bare. -/
def isTerminator (w : Word) : Bool :=
  !w.quoted && w.text == "--"

/-- A word that begins with two dashes and goes on. -/
def isFlag (w : Word) : Bool :=
  !w.quoted && "--".toList.isPrefixOf w.text.toList && w.text.toList.length > 2

/-- The name of a flag, and its value where one is written after an equals sign. -/
def flagParts (w : Word) : String × Option String :=
  let body := w.text.toList.drop 2
  match Text.cutAt? ['='] body with
  | some (key, value) => (String.ofList key, some (String.ofList value))
  | none => (String.ofList body, none)

end Word

/-- One argument as it stands in a stage. -/
inductive Argument where
  | bare (text : String)
  | flag (name value : String)
  deriving DecidableEq

namespace Argument

/-- The arguments that the words after a command name spell. A flag without a value of its own
takes the next word if that is no flag, and is `true` otherwise. -/
def ofWords : List Word → Except SyntaxError (List Argument)
  | [] => .ok []
  | w :: rest =>
    if w.isTerminator then .ok (rest.map fun w => .bare w.text)
    else if !w.isFlag then (ofWords rest).map (.bare w.text :: ·)
    else
      let (name, value) := w.flagParts
      if name.isEmpty then .error (.invalidFlag w.text)
      else
        match value with
        | some v => (ofWords rest).map (.flag name v :: ·)
        | none =>
          match rest with
          | [] => .ok [.flag name "true"]
          | v :: after =>
            if v.isFlag then (ofWords (v :: after)).map (.flag name "true" :: ·)
            else (ofWords after).map (.flag name v.text :: ·)

def bareText? : Argument → Option String
  | .bare s => some s
  | .flag _ _ => none

/-- Adds a flag to the arguments collected so far. The name of the bare words takes no flags. -/
def collect (args : Args) : Argument → Args
  | .bare _ => args
  | .flag name value => if name = Args.bareName then args else args.add name value

end Argument

/-- The arguments collected by name. -/
def Args.ofArguments (as : List Argument) : Args :=
  (bareName, .many (as.filterMap Argument.bareText?)) :: as.foldl Argument.collect []

namespace Invocation

/-- The stage that the words of a segment spell, of which `last` is the last index. -/
def ofWords (last index : Nat) : List Word → Except SyntaxError Invocation
  | [] =>
    if index = 0 then .error .leadingBar
    else if index = last then .error .trailingBar
    else .error (.emptyStage index)
  | head :: rest =>
    if head.isFlag then .error (.flagAsName index head.text)
    else if head.text.isEmpty then .error (.emptyName index)
    else (Argument.ofWords rest).map fun as => ⟨head.text, .ofArguments as⟩

end Invocation

namespace Pipeline

/-- The stages of segments, the first of which has the given index. -/
def ofSegments (last : Nat) : Nat → List (List Word) → Except SyntaxError Pipeline
  | _, [] => .ok []
  | index, words :: rest => do
    let stage ← Invocation.ofWords last index words
    let stages ← ofSegments last (index + 1) rest
    pure (stage :: stages)

/-- The stages of a list of words and bars. No words and no bars are the empty pipeline. -/
def ofLexemes (lexemes : List Lexeme) : Except SyntaxError Pipeline :=
  if lexemes.isEmpty then .ok []
  else
    let segments := Lexeme.segments lexemes
    ofSegments (segments.length - 1) 0 segments

def parse (text : String) : Except SyntaxError Pipeline := do
  ofLexemes (← Lexeme.ofText text.toList)

end Pipeline

end Sluice
