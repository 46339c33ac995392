import Sluice.Command.Registry
import Sluice.Outcome

/-!
Running a pipeline. The stream of each stage is the source of the next one, so nothing happens
until the last stream is pulled. A run halts where a stage that asks for it comes down to a single
request, in which case later stages are not even looked up, or where the whole pipeline does.
-/

namespace Sluice

namespace Pipeline

/-- The end of a run: pulls the last stream. The request of a pipeline without stages is an
ordinary item. -/
def finish (index : Nat) (stream : Stream) (rendered : Bool) : Program Outcome := do
  let items ← stream.collect
  match index, Item.soleApproval? items with
  | last + 1, some a => pure (.haltedOn last a)
  | _, _ => pure (.completed items rendered)

/-- Runs the stages from an index on, with the stream and the presentation of those before. -/
def runFrom (registry : Registry) (ctx : Context) (index : Nat) (stream : Stream)
    (rendered : Bool) : Pipeline → Program Outcome
  | [] => finish index stream rendered
  | stage :: rest =>
    match registry.find? stage.name with
    | none => .fail (.unknownCommand stage.name)
    | some command =>
      .perform index (.start stage) fun _ =>
        match command.run index ctx stage.args stream with
        | .error f => .fail f
        | .ok output =>
          if output.halt then do
            let items ← output.stream.collect
            match Item.soleApproval? items with
            | some a => pure (.haltedOn index a)
            | none => runFrom registry ctx (index + 1) (.ofList items) output.rendered rest
          else runFrom registry ctx (index + 1) output.stream output.rendered rest

def run (registry : Registry) (ctx : Context) (pipeline : Pipeline) (source : Stream) :
    Program Outcome :=
  runFrom registry ctx 0 source false pipeline

end Pipeline

end Sluice
