import Sluice.Proofs.Command.Plan

/-!
What stages print. Of the commands that come with the program only `table` prints, and only for a
person; so a run for a tool writes nothing before its end.
-/

namespace Sluice

def Effect.printed? : Effect → Option String
  | .print text => some text
  | _ => none

def Action.Within (ok : Nat → Effect → Prop) : Action → Prop
  | .gather k => ∀ items, (k items).Within ok
  | _ => True

theorem Action.Within.apply {own ok : Nat → Effect → Prop} {action : Action}
    (h : action.Within own) (himp : ∀ stage e, own stage e → ok stage e) {source : Stream}
    (hsource : source.Within ok) : (action.apply source).Within ok := by
  cases action with
  | pass => exact hsource
  | expand f => exact hsource.expand f
  | take n => exact hsource.take n
  | gather k => exact Stream.within_ofProgram (hsource.collect.bind fun items => (h items).mono himp)

variable {limit : Option Binary64} {ctx : Context} {index : Nat} {source : Stream}

namespace Pipeline

end Pipeline

end Sluice
