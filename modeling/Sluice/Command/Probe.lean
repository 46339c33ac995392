import Sluice.Command.Basic
import Sluice.Json.Writer

/-!
Commands for watching a run from inside: they leave a note of each item they read or make, make
items of their own, or fail at a chosen point.
-/

namespace Sluice

namespace Probe

def shown (x : Item) : String :=
  Json.text Json.spaced x.toJson

/-- Notes each item that is pulled, and the end. -/
def tap (stage : Nat) (name : String) : Stream → Stream
  | .done => .perform stage (.note s!"{name}:end") fun _ => .done
  | .fail f => .fail f
  | .yield x rest =>
    .perform stage (.note s!"{name}:consume {shown x}") fun _ => .yield x (tap stage name rest)
  | .perform s e next => .perform s e fun a => tap stage name (next a)

/-- Makes items, each noted before it is handed on. -/
def produce (stage : Nat) (name : String) : List Item → Stream
  | [] => .done
  | x :: rest =>
    .perform stage (.note s!"{name}:produce {shown x}") fun _ =>
      .yield x (produce stage name rest)

/-- A program, then the stream that depends on nothing of it. -/
def after (s : Stream) : Program (List Item) → Stream
  | .pure _ => s
  | .fail f => .fail f
  | .perform stage e next => .perform stage e fun a => after s (next a)

/-- Passes some items on and fails at the next pull. -/
def failAfter (f : Failure) : Nat → Stream → Stream
  | _, .done => .fail f
  | _, .fail e => .fail e
  | 0, .yield _ _ => .fail f
  | n + 1, .yield x rest => .yield x (failAfter f n rest)
  | n, .perform stage e next => .perform stage e fun a => failAfter f n (next a)

end Probe

/-- What a probe does with its source. -/
inductive ProbeKind where
  | tap
  | emit (items : List Item)
  | count (last : Nat)
  | failAfter (n : Nat) (f : Failure)
  | refuse (e : CommandError)

/-- A command that watches a run. Its output can be made to halt or to count as presented. -/
def Command.probe (name help : String) (kind : ProbeKind) (halt rendered : Bool) : Command where
  name
  help
  run stage _ _ source :=
    let output (s : Stream) : Except Failure StageOutput := .ok ⟨s, rendered, halt⟩
    match kind with
    | .tap => output (Probe.tap stage name source)
    | .emit items => output (Probe.after (Probe.produce stage name items) source.collect)
    | .count last =>
      output (Probe.produce stage name
        ((List.range (last + 1)).map fun (k : Nat) => .value (.int k)))
    | .failAfter n f => output (Probe.failAfter f n source)
    | .refuse e => Sluice.refuse e

end Sluice
