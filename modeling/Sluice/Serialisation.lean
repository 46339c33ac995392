import Sluice.Failure
import Sluice.Item
import Sluice.Json.Limits

/-!
Items on their way to a text. The serialiser takes them apart level by level and goes down no further
than it has room for, a scalar taking one level like an array; then the writer turns whole numbers into
digits, up to a number of them; and at the end the text has to be encoded, which halves of characters
prevent.
-/

namespace Sluice

namespace Json

/-- How many levels the serialiser goes down. -/
def maxLevels : Nat := 255

/-- A key that is a text. -/
def checkKey (k : String) : Except Failure Unit :=
  match Text.half? k.toList with
  | some half => .error (.notEncodable half)
  | none => .ok ()

mutual

/-- Goes down a value while there is room, looking at each key before what stands under it. -/
def takeApart : (room : Nat) → Json → Except Failure Unit
  | 0, _ => .error .tooManyLevels
  | room + 1, .arr xs => takeApartList room xs
  | room + 1, .obj ms => takeApartMembers room ms
  | _ + 1, .null => .ok ()
  | _ + 1, .bool _ => .ok ()
  | _ + 1, .int _ => .ok ()
  | _ + 1, .float _ => .ok ()
  | _ + 1, .str _ => .ok ()

def takeApartList : (room : Nat) → List Json → Except Failure Unit
  | _, [] => .ok ()
  | room, x :: xs => do
    takeApart room x
    takeApartList room xs

def takeApartMembers : (room : Nat) → List (String × Json) → Except Failure Unit
  | _, [] => .ok ()
  | room, (k, x) :: rest => do
    checkKey k
    takeApart room x
    takeApartMembers room rest

end

/-- A value whose whole numbers are short enough to be written. -/
def checkNumbers (j : Json) : Except Failure Unit :=
  if j.longNumber?.isSome then .error .longInText else .ok ()

/-- The text of a value, if it can be encoded. Halves are reported where they stand in the text. -/
def encodable (j : Json) (text : String) : Except Failure String :=
  match j.half? with
  | some half => .error (.notEncodable ((Text.half? text.toList).getD half))
  | none => .ok text

end Json

namespace Item

mutual

/-- Goes down an item while there is room. A request takes one level, and its list none. -/
def takeApart : (room : Nat) → Item → Except Failure Unit
  | room, .value j => j.takeApart room
  | 0, .request _ _ => .error .tooManyLevels
  | room + 1, .request items _ => takeApartList room items

def takeApartList : (room : Nat) → List Item → Except Failure Unit
  | _, [] => .ok ()
  | room, x :: xs => do
    takeApart room x
    takeApartList room xs

end

/-- The values of a list of items, which takes a level itself. -/
def jsonable (items : List Item) : Except Failure (List Json) := do
  takeApartList (Json.maxLevels - 1) items
  pure (toJsonList items)

end Item

/-- A text that can be encoded as it is. -/
def encodableText (text : String) : Except Failure String :=
  match Text.half? text.toList with
  | some half => .error (.notEncodable half)
  | none => .ok text

end Sluice
