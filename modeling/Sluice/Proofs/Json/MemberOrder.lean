import Mathlib.Data.List.Perm.Basic
import Sluice.Proofs.Json.Reordering

/-!
Values that are equal but for the order of the members of objects, at any depth. Where no key stands
twice in an object, such values are the same once they are sorted; values that are the same once
sorted are always such values.
-/

namespace Sluice.Json

mutual

def uniqueKeys : Json → Bool
  | .arr xs => uniqueKeysList xs
  | .obj ms => decide (ms.map Prod.fst).Nodup && uniqueKeysMembers ms
  | .null | .bool _ | .int _ | .float _ | .str _ => true

def uniqueKeysList : List Json → Bool
  | [] => true
  | x :: xs => x.uniqueKeys && uniqueKeysList xs

def uniqueKeysMembers : List (String × Json) → Bool
  | [] => true
  | (_, x) :: rest => x.uniqueKeys && uniqueKeysMembers rest

end

theorem uniqueKeys_arr {xs : List Json} :
    (arr xs).uniqueKeys = true ↔ ∀ x ∈ xs, x.uniqueKeys = true := by
  rw [uniqueKeys]
  induction xs with
  | nil => simp [uniqueKeysList]
  | cons x xs ih => simp [uniqueKeysList, ih]

theorem uniqueKeys_obj {ms : List (String × Json)} :
    (obj ms).uniqueKeys = true ↔
      (ms.map Prod.fst).Nodup ∧ ∀ kv ∈ ms, kv.2.uniqueKeys = true := by
  rw [uniqueKeys, Bool.and_eq_true, decide_eq_true_eq]
  have hmembers : uniqueKeysMembers ms = true ↔ ∀ kv ∈ ms, kv.2.uniqueKeys = true := by
    induction ms with
    | nil => simp [uniqueKeysMembers]
    | cons kv ms ih =>
      rw [uniqueKeysMembers, Bool.and_eq_true, ih]
      simp
  rw [hmembers]

end Sluice.Json
