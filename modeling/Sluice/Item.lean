import Sluice.Json.Finite

/-!
What flows between stages: JSON values, and requests to approve a list of items. A request can also
come as a JSON object of the right shape.
-/

namespace Sluice

inductive Item where
  | value (j : Json)
  | request (items : List Item) (prompt : String)

/-- What a person is asked to approve. -/
structure Approval where
  items : List Item
  prompt : String

namespace Item

instance : Inhabited Item := ⟨.value .null⟩

/-- The word that marks an object as a request. -/
def requestType : String := "approval_request"

mutual

/-- The item as a JSON value. A request becomes the object that stands for it, which is JSON proper:
null stands for the undefined and infinite numbers among its items. -/
def toJson : Item → Json
  | .value j => j
  | .request items prompt =>
    .obj [("type", .str requestType), ("items", .arr (Json.finiteList (toJsonList items))),
      ("prompt", .str prompt)]

def toJsonList : List Item → List Json
  | [] => []
  | x :: xs => x.toJson :: toJsonList xs

end

def isValue : Item → Bool
  | .value _ => true
  | .request _ _ => false

/-- The request that an item is or stands for. An object stands for one if its type says so and it
has a list of items and a text to show; its other members are not looked at. -/
def approval? : Item → Option Approval
  | .request items prompt => some ⟨items, prompt⟩
  | .value j =>
    if j.get? "type" = some (.str requestType) then
      match j.get? "items", j.get? "prompt" with
      | some (.arr xs), some (.str prompt) => some ⟨xs.map .value, prompt⟩
      | _, _ => none
    else none

/-- The request that a list of items comes down to: that of its only item. -/
def soleApproval? : List Item → Option Approval
  | [x] => x.approval?
  | _ => none

end Item

def Approval.toItem (a : Approval) : Item :=
  .request a.items a.prompt

end Sluice
