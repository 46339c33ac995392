import Sluice.Json.Basic

/-!
Undefined and infinite numbers, which JSON proper cannot hold: whether a value has any, and the
value with null in their places.
-/

namespace Sluice.Json

mutual

/-- Whether a value holds no undefined or infinite number. -/
def allFinite : Json → Bool
  | .float x => x.isFinite
  | .arr xs => allFiniteList xs
  | .obj ms => allFiniteMembers ms
  | .null | .bool _ | .int _ | .str _ => true

def allFiniteList : List Json → Bool
  | [] => true
  | x :: xs => x.allFinite && allFiniteList xs

def allFiniteMembers : List (String × Json) → Bool
  | [] => true
  | (_, x) :: rest => x.allFinite && allFiniteMembers rest

end

mutual

/-- The value with null for each undefined or infinite number. -/
def finite : Json → Json
  | .float x => if x.isFinite then .float x else .null
  | .arr xs => .arr (finiteList xs)
  | .obj ms => .obj (finiteMembers ms)
  | .null => .null
  | .bool b => .bool b
  | .int n => .int n
  | .str s => .str s

def finiteList : List Json → List Json
  | [] => []
  | x :: xs => x.finite :: finiteList xs

def finiteMembers : List (String × Json) → List (String × Json)
  | [] => []
  | (k, x) :: rest => (k, x.finite) :: finiteMembers rest

end

end Sluice.Json
