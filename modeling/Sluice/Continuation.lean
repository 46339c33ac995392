import Sluice.Failure
import Sluice.Item
import Sluice.Outcome
import Sluice.Pipeline.Basic
import Sluice.Text.Integer

/-!
Continuations: what is kept of a halted run so that it can go on later. A continuation can be built
from a run or read from a JSON value; reading counts every fault it finds, each field on its own,
and looks at the index against the length of the pipeline only when all fields are in order.
-/

namespace Sluice

/-- A halted run: its pipeline, the index of the stage to go on with, the items for that stage and
what was asked. -/
structure Continuation where
  pipeline : Pipeline
  resumeAt : Nat
  items : List Item
  prompt : String
  resumeAt_le : resumeAt ≤ pipeline.length

/-- A value, or the number of faults found in its place. -/
abbrev Checked (α : Type) : Type := Except Nat α

namespace Checked

/-- Two values, or the faults of both. -/
def both {α β : Type} : Checked α → Checked β → Checked (α × β)
  | .ok a, .ok b => .ok (a, b)
  | .ok _, .error n => .error n
  | .error m, .ok _ => .error m
  | .error m, .error n => .error (m + n)

/-- The values of a list, or the faults of all its elements. -/
def all {α β : Type} (check : α → Checked β) : List α → Checked (List β)
  | [] => .ok []
  | x :: xs => (both (check x) (all check xs)).map fun (y, ys) => y :: ys

/-- The value of a key that has to be there. -/
def required {α : Type} (j : Json) (key : String) (check : Json → Checked α) : Checked α :=
  match j.get? key with
  | some v => check v
  | none => .error 1

/-- The value of a key, or a default where it is not there. -/
def optional {α : Type} (j : Json) (key : String) (default : α) (check : Json → Checked α) :
    Checked α :=
  match j.get? key with
  | some v => check v
  | none => .ok default

def string : Json → Checked String
  | .str s => .ok s
  | _ => .error 1

def items : Json → Checked (List Item)
  | .arr xs => .ok (xs.map .value)
  | _ => .error 1

/-- The value of an argument. Other values are no text, and a list with wrong elements or no list
besides. -/
def argValue : Json → Checked ArgValue
  | .str s => .ok (.single s)
  | .arr xs =>
    match all string xs with
    | .ok ss => .ok (.many ss)
    | .error n => .error (n + 1)
  | _ => .error 2

def args : Json → Checked Args
  | .obj ms => all (fun (k, v) => (argValue v).map fun v => (k, v)) ms
  | _ => .error 1

/-- A stage: an object with a name, and with arguments unless it has none. -/
def invocation : Json → Checked Invocation
  | .obj ms =>
    (both (required (.obj ms) "name" string) (optional (.obj ms) "args" Args.empty args)).map
      fun (name, args) => ⟨name, args⟩
  | _ => .error 1

def pipeline : Json → Checked Pipeline
  | .arr xs => all invocation xs
  | _ => .error 1

/-- The whole number that a text of ASCII digits spells: blanks around it, a sign, single
underscores between digits and a point with zeros after it are allowed. -/
def wholeText? (cs : List Char) : Option Int :=
  let body := Text.trimOf Text.isNumberBlank cs
  if body.all fun c => c.toNat < 0x80 then
    match Text.cutAt? ['.'] body with
    | none => Text.signed? body
    | some (whole, zeros) =>
      if zeros.all (· == '0') then Text.signed? whole else none
  else none

/-- The whole number that a floating point number is, if it is one and has at most 63 bits. -/
def wholeFloat? : Binary64 → Option Int
  | .finite negative x =>
    let n := x.units / Magnitude.unitsPerOne
    if x.units % Magnitude.unitsPerOne = 0 ∧ n < 1 <<< 63 then
      some (if negative then -(n : Int) else n)
    else none
  | _ => none

/-- The whole number that a value stands for. -/
def whole? : Json → Option Int
  | .int n => some n
  | .bool b => some (if b then 1 else 0)
  | .float x => wholeFloat? x
  | .str s => wholeText? s.toList
  | _ => none

/-- An index: a whole number that is not negative. -/
def index (j : Json) : Checked Nat :=
  match whole? j with
  | some n => if n < 0 then .error 1 else .ok n.toNat
  | none => .error 1

end Checked

namespace Continuation

/-- The continuation of these parts, if the index is not past the end of the pipeline. -/
def ofParts (pipeline : Pipeline) (resumeAt : Nat) (items : List Item) (prompt : String) :
    Except ContinuationError Continuation :=
  if h : resumeAt ≤ pipeline.length then .ok ⟨pipeline, resumeAt, items, prompt, h⟩
  else .error (.pastEnd resumeAt pipeline.length)

/-- The continuation of checked parts, or the number of their faults. -/
def ofChecked (pipeline : Checked Pipeline) (resumeAt : Checked Nat) (items : Checked (List Item))
    (prompt : Checked String) : Except ContinuationError Continuation :=
  match Checked.both (Checked.both pipeline resumeAt) (Checked.both items prompt) with
  | .ok ((pipeline, resumeAt), items, prompt) => ofParts pipeline resumeAt items prompt
  | .error n => .error (.invalid n)

/-- The continuation after a halted outcome of a pipeline. -/
def ofOutcome (pipeline : Pipeline) (o : Outcome) : Except ContinuationError Continuation :=
  match o.approval?, o.haltedAt with
  | some a, some stage =>
    ofChecked (.ok pipeline) (Checked.index (.int (stage + 1))) (.ok a.items) (.ok a.prompt)
  | _, _ => .error .notHalted

/-- The key of the index, and the one that is looked at where the first is not there. -/
def indexKeys : String × String :=
  ("resumeAtIndex", "resume_at_index")

/-- The continuation that a JSON object describes. -/
def ofJson (j : Json) : Except ContinuationError Continuation :=
  let resumeAt :=
    match j.get? indexKeys.1 with
    | some v => Checked.index v
    | none => Checked.required j indexKeys.2 Checked.index
  ofChecked (Checked.required j "pipeline" Checked.pipeline) resumeAt
    (Checked.optional j "items" [] Checked.items) (Checked.optional j "prompt" "" Checked.string)

/-- The stages that are still to run. -/
def remaining (c : Continuation) : Pipeline :=
  c.pipeline.drop c.resumeAt

end Continuation

def ArgValue.toJson : ArgValue → Json
  | .single s => .str s
  | .many ss => .arr (ss.map .str)

def Args.toJson (args : Args) : Json :=
  .obj (args.map fun (k, v) => (k, v.toJson))

def Invocation.toJson (i : Invocation) : Json :=
  .obj [("name", .str i.name), ("args", i.args.toJson)]

namespace Continuation

/-- The version of the form in which continuations are kept. -/
def version : Int := 1

def toJson (c : Continuation) : Json :=
  .obj [("version", .int version), ("pipeline", .arr (c.pipeline.map Invocation.toJson)),
    (indexKeys.1, .int c.resumeAt), ("items", .arr (Item.toJsonList c.items)),
    ("prompt", .str c.prompt)]

end Continuation

end Sluice
