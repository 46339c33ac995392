import Sluice.Proofs.Stream.Laws
import Sluice.Run

/-!
The two places where a run can halt, told apart. A run arrives at its end once its last stream is
pulled, unless a stage that asks for it halts the run before. What the run then comes to depends only
on how it arrives: the items are looked at once more, and a request that is the only one of them
halts the run at its last stage.
-/

namespace Sluice

/-- The outcome of a run with so many stages once all items of the last one are there. -/
def Outcome.reached (stages : Nat) (items : List Item) (rendered : Bool) : Outcome :=
  match stages, Item.soleApproval? items with
  | last + 1, some a => .haltedOn last a
  | _, _ => .completed items rendered

namespace Outcome

variable {stages : Nat} {items : List Item} {rendered : Bool}

theorem reached_of_none (h : Item.soleApproval? items = none) :
    reached stages items rendered = .completed items rendered := by
  cases stages with
  | zero => rfl
  | succ last => simp only [reached, h]

theorem reached_of_some {a : Approval} (hstages : 0 < stages)
    (h : Item.soleApproval? items = some a) :
    reached stages items rendered = .haltedOn (stages - 1) a := by
  cases stages with
  | zero => cases hstages
  | succ last => simp only [reached, h, Nat.add_sub_cancel]

/-- Where a run with stages does not halt, no request is left. -/
theorem soleApproval?_of_reached (hstages : 0 < stages)
    (h : (reached stages items rendered).halted = false) : Item.soleApproval? items = none := by
  cases hsole : Item.soleApproval? items with
  | none => rfl
  | some a =>
    rw [reached_of_some hstages hsole] at h
    cases h

/-- A run that does not halt leaves all the items. -/
theorem items_reached (h : (reached stages items rendered).halted = false) :
    (reached stages items rendered).items = items := by
  cases stages with
  | zero => rfl
  | succ last =>
    cases hsole : Item.soleApproval? items with
    | none => simp only [reached, hsole, completed]
    | some a => simp [reached, hsole, haltedOn] at h

end Outcome

/-- How a run comes to its end: halted by a stage that asks for it, or with all items of the last
stage. -/
inductive Arrival where
  | halted (stage : Nat) (a : Approval)
  | ended (items : List Item) (rendered : Bool)

def Arrival.outcome (stages : Nat) : Arrival → Outcome
  | .halted stage a => .haltedOn stage a
  | .ended items rendered => .reached stages items rendered

namespace Pipeline

variable {registry : Registry} {ctx : Context}

/-- Runs the stages from an index on as far as the last look at the items. -/
def arrive (registry : Registry) (ctx : Context) (index : Nat) (stream : Stream)
    (rendered : Bool) : Pipeline → Program Arrival
  | [] => stream.collect.bind fun items => .pure (.ended items rendered)
  | stage :: rest =>
    match registry.find? stage.name with
    | none => .fail (.unknownCommand stage.name)
    | some command =>
      .perform index (.start stage) fun _ =>
        match command.run index ctx stage.args stream with
        | .error f => .fail f
        | .ok output =>
          if output.halt then
            output.stream.collect.bind fun items =>
              match Item.soleApproval? items with
              | some a => .pure (.halted index a)
              | none => arrive registry ctx (index + 1) (.ofList items) output.rendered rest
          else arrive registry ctx (index + 1) output.stream output.rendered rest

theorem finish_reached (index : Nat) (stream : Stream) (rendered : Bool) :
    finish index stream rendered =
      stream.collect.bind fun items => .pure (.reached index items rendered) := by
  rw [finish, Program.monad_bind]
  congr 1
  funext items
  cases index with
  | zero => rfl
  | succ last =>
    simp only [Outcome.reached]
    cases Item.soleApproval? items <;> rfl

/-- A run arrives at its end and then looks at what is there. -/
theorem runFrom_arrive (pipeline : Pipeline) (index : Nat) (stream : Stream) (rendered : Bool) :
    runFrom registry ctx index stream rendered pipeline =
      (arrive registry ctx index stream rendered pipeline).bind fun arrival =>
        .pure (arrival.outcome (index + pipeline.length)) := by
  induction pipeline generalizing index stream rendered with
  | nil => rw [runFrom, arrive, finish_reached, Program.bind_assoc]; rfl
  | cons stage rest ih =>
    have hlength : index + (stage :: rest).length = index + 1 + rest.length := by
      rw [List.length_cons]
      omega
    rw [runFrom, arrive, hlength]
    cases registry.find? stage.name with
    | none => rfl
    | some command =>
      simp only [Program.bind_perform]
      congr 1
      funext _
      cases command.run index ctx stage.args stream with
      | error f => rfl
      | ok output =>
        simp only
        split
        · rw [Program.monad_bind, Program.bind_assoc]
          congr 1
          funext items
          cases Item.soleApproval? items with
          | none => exact ih (index + 1) (.ofList items) output.rendered
          | some a => rfl
        · exact ih (index + 1) output.stream output.rendered

end Pipeline

end Sluice
