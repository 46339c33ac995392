import Sluice.Item

/-!
The outcome of a run that did not fail: the items of the last stage, or the request at which the
run halted together with the index of the stage that made it.
-/

namespace Sluice

structure Outcome where
  items : List Item
  /-- Whether the last stage presented the items itself. -/
  rendered : Bool
  halted : Bool
  haltedAt : Option Int

namespace Outcome

/-- A run that came to its end. -/
def completed (items : List Item) (rendered : Bool) : Outcome :=
  ⟨items, rendered, false, none⟩

/-- A run that halted at a stage. -/
def haltedOn (stage : Nat) (a : Approval) : Outcome :=
  ⟨[a.toItem], false, true, some stage⟩

/-- The request at which a run halted. -/
def approval? (o : Outcome) : Option Approval :=
  if o.halted then Item.soleApproval? o.items else none

end Outcome

end Sluice
