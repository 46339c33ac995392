import Sluice.Failure
import Sluice.Stream.Effect

/-!
Programs as trees: a result, a failure, or an effect with what follows each of its answers. Each
effect carries the index of the stage that has it. Running a program against a script gives its
result, the rest of the script and the effects in order.
-/

namespace Sluice

/-- A program with a result of type `α`. -/
inductive Program (α : Type) where
  | pure (a : α)
  | fail (f : Failure)
  | perform (stage : Nat) (e : Effect) (next : e.Answer → Program α)

/-- One effect of a run and the stage that had it. -/
structure Logged where
  stage : Nat
  effect : Effect
  deriving DecidableEq

/-- What a run leaves behind. -/
structure Ran (α : Type) where
  result : Except Failure α
  script : Script
  log : List Logged

namespace Program

/-- A program, then another that depends on its result. -/
def bind {α β : Type} : Program α → (α → Program β) → Program β
  | .pure a, f => f a
  | .fail e, _ => .fail e
  | .perform stage e next, f => .perform stage e fun a => (next a).bind f

instance : Monad Program where
  pure := .pure
  bind := .bind

/-- One effect and its answer. -/
def effect (stage : Nat) (e : Effect) : Program e.Answer :=
  .perform stage e .pure

/-- A result or a failure that needs no effect. -/
def ofExcept {α : Type} : Except Failure α → Program α
  | .ok a => .pure a
  | .error f => .fail f

/-- The result or the failure of a program as a result. -/
def attempt {α : Type} : Program α → Program (Except Failure α)
  | .pure a => .pure (.ok a)
  | .fail f => .pure (.error f)
  | .perform stage e next => .perform stage e fun a => (next a).attempt

def run {α : Type} : Program α → Script → Ran α
  | .pure a, s => ⟨.ok a, s, []⟩
  | .fail f, s => ⟨.error f, s, []⟩
  | .perform stage e next, s =>
    let (a, rest) := s.answer e
    let r := (next a).run rest
    { r with log := ⟨stage, e⟩ :: r.log }

end Program

end Sluice
