import Sluice.Stream.Basic

/-!
Commands: a name, a help text, and what a stage does with its arguments and its source. Running a
command only builds the stream of its output; whatever has an effect waits in that stream. A command
that pulls its source before it has returned a stream is not among the commands that are treated here.
-/

namespace Sluice

/-- How the outcome of a run is presented. -/
inductive Mode where
  | human
  | tool
  deriving DecidableEq

/-- What all stages of a run share. -/
structure Context where
  mode : Mode
  env : Environment
  /-- Whether a person can answer questions on a terminal. -/
  interactive : Bool

/-- The value of a variable, where an empty one counts as absent. -/
def Context.filled? (ctx : Context) (name : String) : Option String :=
  (ctx.env.lookup name).filter fun s => !s.isEmpty

/-- What a stage hands on: its stream, whether the stage presents the items itself, and whether
later stages have to wait until the stream is known not to be a single request. -/
structure StageOutput where
  stream : Stream
  rendered : Bool
  halt : Bool

/-- The output of a stage that neither presents nor halts. -/
def StageOutput.plain (stream : Stream) : StageOutput :=
  ⟨stream, false, false⟩

/-- A command. It is given the index of its stage, the context, its arguments and its source, none of
which it pulls before it returns. -/
structure Command where
  name : String
  help : String
  run : Nat → Context → Args → Stream → Except Failure StageOutput

def refuse {α : Type} (e : CommandError) : Except Failure α :=
  .error (.command e)

def textOfLines (lines : List String) : String :=
  String.join (lines.map (· ++ "\n"))

/-- The whole number that a flag holds, or a default where it is absent. -/
def Args.integer (args : Args) (name : String) (default : Int) : Except Failure Int :=
  match args.flag? name with
  | none => .ok default
  | some raw =>
    match Text.integer? raw.toList with
    | some n => .ok n
    | none => refuse (.notInteger name raw)

/-- The items of a JSON value that a source answers with: the elements of an array, else itself. -/
def Json.items : Json → List Item
  | .arr xs => xs.map .value
  | j => [.value j]

end Sluice
