import Sluice.Item
import Sluice.Stream.Program

/-!
Streams of items that are pulled one at a time. A stream is a finite tree: its end, a failure, an
item with the stream after it, or an effect with the stream after each answer. Nothing in it
happens before a pull reaches it, so a stage that stops pulling leaves the rest of its source
untouched.
-/

namespace Sluice

inductive Stream where
  | done
  | fail (f : Failure)
  | yield (x : Item) (rest : Stream)
  | perform (stage : Nat) (e : Effect) (next : e.Answer → Stream)

namespace Stream

instance : Inhabited Stream := ⟨.done⟩

def prepend (xs : List Item) (s : Stream) : Stream :=
  xs.foldr .yield s

def ofList (xs : List Item) : Stream :=
  prepend xs .done

/-- The stream that runs a program at the first pull and then yields its items. -/
def ofProgram : Program (List Item) → Stream
  | .pure xs => ofList xs
  | .fail f => .fail f
  | .perform stage e next => .perform stage e fun a => ofProgram (next a)

/-- Pulls a stream to its end and gives its items. -/
def collect : Stream → Program (List Item)
  | .done => .pure []
  | .fail f => .fail f
  | .yield x rest => (collect rest).bind fun xs => .pure (x :: xs)
  | .perform stage e next => .perform stage e fun a => collect (next a)

/-- Replaces each item by a list of items, or fails at it. -/
def expand (f : Item → Except Failure (List Item)) : Stream → Stream
  | .done => .done
  | .fail e => .fail e
  | .yield x rest =>
    match f x with
    | .ok xs => prepend xs (expand f rest)
    | .error e => .fail e
  | .perform stage e next => .perform stage e fun a => expand f (next a)

/-- The first items of a stream. The item after the last of them is not pulled. -/
def take : Nat → Stream → Stream
  | 0, _ => .done
  | _ + 1, .done => .done
  | _ + 1, .fail e => .fail e
  | n + 1, .yield x rest => .yield x (take n rest)
  | n + 1, .perform stage e next => .perform stage e fun a => take (n + 1) (next a)

end Stream

end Sluice
