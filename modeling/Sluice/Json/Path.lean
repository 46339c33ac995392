import Sluice.Json.Basic
import Sluice.Text.Cut

/-!
Dotted paths into nested objects. Every dot of a path descends one level, so a key that itself
holds a dot cannot be reached.
-/

namespace Sluice.Json

/-- The keys that a path goes through. -/
def pathKeys (path : String) : List String :=
  (Text.splitAt '.' path.toList).map String.ofList

/-- The value reached by descending through keys. -/
def descend (value : Json) : List String → Option Json
  | [] => some value
  | key :: rest =>
    match value.get? key with
    | some next => descend next rest
    | none => none

/-- The value at a path, if every object on the way has its key. -/
def atPath (value : Json) (path : String) : Option Json :=
  descend value (pathKeys path)

end Sluice.Json
