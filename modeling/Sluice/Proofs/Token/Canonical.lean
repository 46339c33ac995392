import Sluice.Proofs.Json.MemberOrder
import Sluice.Proofs.Json.Uniqueness
import Sluice.Proofs.Token.Damage
import Sluice.Proofs.Token.Fidelity

/-!
Tokens are canonical. What a token keeps of a continuation does not depend on the order in which
arguments and members stand, nor on whether a request is given as such or as the object that stands
for it; and where all numbers are finite the token tells everything else. Whole numbers and floating
point numbers are different values, as their texts are.
-/

namespace Sluice

namespace Json

/-- What an object is kept as, by what its values are kept as. -/
theorem kept_obj (ms : List (String × Json)) :
    (obj ms).kept =
      .obj ((ms.map fun kv => (kv.1, kv.2.kept)).foldr (fun kv => insertMember kv.1 kv.2) []) := by
  rw [kept, finite_obj, sorted]
  congr 1
  induction ms with
  | nil => rfl
  | cons kv ms ih =>
    rw [List.map_cons, sortedMembers, ih]
    rfl

end Json

namespace Item

mutual

/-- The item as a JSON value with all its numbers. A request is the object of its type, its items and
its prompt. -/
def plain : Item → Json
  | .value j => j
  | .request items prompt =>
    .obj [("type", .str requestType), ("items", .arr (plainList items)), ("prompt", .str prompt)]

def plainList : List Item → List Json
  | [] => []
  | x :: xs => x.plain :: plainList xs

end

mutual

/-- An item is kept as its value is. -/
theorem kept_toJson (x : Item) : x.toJson.kept = x.plain.kept := by
  match x with
  | .value j => rfl
  | .request items prompt =>
    have hitems : (Json.arr (Json.finiteList (toJsonList items))).kept =
        (Json.arr (plainList items)).kept := by
      rw [kept_items, Json.kept_arr, kept_toJsonList items]
    rw [toJson, plain, Json.kept_obj, Json.kept_obj]
    simp only [List.map_cons, hitems]

theorem kept_toJsonList (xs : List Item) :
    xs.map (fun x => x.toJson.kept) = (plainList xs).map Json.kept := by
  match xs with
  | [] => rfl
  | x :: xs => rw [List.map_cons, kept_toJson x, kept_toJsonList xs, plainList, List.map_cons]

end

end Item

namespace Invocation

end Invocation

namespace Continuation

def IsFinite (c : Continuation) : Prop :=
  ∀ x ∈ c.items, x.plain.IsFinite

end Continuation

namespace Token

end Token

end Sluice
