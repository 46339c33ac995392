import Sluice.Json.Basic
import Sluice.Text.Half
import Sluice.Text.Integer
import Sluice.Decimal.Notation

/-!
What keeps a value from being written: a whole number with more digits than are turned into text, or
half a character, which has no encoding.
-/

namespace Sluice.Json

section

variable {α : Type} (scalar : Json → Option α) (key : String → Option α)

mutual

/-- The first finding in a value, its scalars and keys looked at in the order of its text. -/
def search? : Json → Option α
  | .arr xs => searchList? xs
  | .obj ms => searchMembers? ms
  | .null => scalar .null
  | .bool b => scalar (.bool b)
  | .int n => scalar (.int n)
  | .float x => scalar (.float x)
  | .str s => scalar (.str s)

def searchList? : List Json → Option α
  | [] => none
  | x :: xs => (search? x).orElse fun _ => searchList? xs

def searchMembers? : List (String × Json) → Option α
  | [] => none
  | (k, x) :: rest =>
    (key k).orElse fun _ => (search? x).orElse fun _ => searchMembers? rest

end

end

/-- The first halves in the strings and keys of a value. -/
def half? (j : Json) : Option Text.Half :=
  j.search?
    (fun
      | .str s => Text.half? s.toList
      | _ => none)
    (fun k => Text.half? k.toList)

/-- The first whole number of a value that is too long to be turned into text. -/
def longNumber? (j : Json) : Option Int :=
  j.search?
    (fun
      | .int n => if Text.maxDigits < (Decimal.digitsOf n.natAbs).length then some n else none
      | _ => none)
    (fun _ => none)

end Sluice.Json
