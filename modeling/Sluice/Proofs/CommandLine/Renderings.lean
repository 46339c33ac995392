import Sluice.Proofs.Approval.Replay

/-!
The two renderings of an outcome, for a person and for a tool. They are written in different layouts,
one with words for undefined and infinite numbers and one with null, yet what is read from them is the
same list of values, up to these nulls. Requests among the items are JSON proper in both.
-/

namespace Sluice

namespace Item

mutual

/-- What an item is shown as: a value as itself, and a request as an object that says what it is. -/
def ShownAs : Item → Json → Prop
  | .value j, v => v = j
  | .request items prompt, v => ∃ vs, AskedAs items vs ∧
      v = .obj [("type", .str requestType), ("items", .arr vs), ("prompt", .str prompt)]

/-- What the items of a request are shown as: null stands for the undefined and infinite numbers among
them. -/
def AskedAs : List Item → List Json → Prop
  | [], vs => vs = []
  | x :: xs, vs => ∃ v vs', x.ShownAs v ∧ AskedAs xs vs' ∧ vs = v.finite :: vs'

end

mutual

theorem shownAs_toJson (x : Item) : x.ShownAs x.toJson := by
  match x with
  | .value j => exact rfl
  | .request items prompt => exact ⟨_, askedAs_toJsonList items, rfl⟩

theorem askedAs_toJsonList (xs : List Item) : AskedAs xs (Json.finiteList (toJsonList xs)) := by
  match xs with
  | [] => exact rfl
  | x :: xs => exact ⟨x.toJson, _, shownAs_toJson x, askedAs_toJsonList xs, rfl⟩

end

end Item

namespace Json

variable {l : Layout}

end Json

namespace CommandLine

end CommandLine

end Sluice
