import Mathlib.Algebra.Group.Nat.Defs
import Sluice.Json.Finite
import Sluice.Json.Reader
import Sluice.Json.Writer

/-!
Values by their shape: induction over elements and members at any depth, and what the functions that
go through a whole value do to the elements of an array and to the members of an object.
-/

namespace Sluice.Json

/-- Induction over values: an array or an object may use what holds of everything inside it. -/
@[elab_as_elim]
theorem shape_induction {motive : Json → Prop} (null : motive .null) (bool : ∀ b, motive (.bool b))
    (int : ∀ n, motive (.int n)) (float : ∀ x, motive (.float x)) (str : ∀ s, motive (.str s))
    (arr : ∀ xs, (∀ x ∈ xs, motive x) → motive (.arr xs))
    (obj : ∀ ms, (∀ kv ∈ ms, motive kv.2) → motive (.obj ms)) (j : Json) : motive j := by
  match j with
  | .null => exact null
  | .bool b => exact bool b
  | .int n => exact int n
  | .float x => exact float x
  | .str s => exact str s
  | .arr xs => exact arr xs fun x hx => shape_induction null bool int float str arr obj x
  | .obj ms => exact obj ms fun kv hkv => shape_induction null bool int float str arr obj kv.2
termination_by sizeOf j
decreasing_by
  · have := List.sizeOf_lt_of_mem hx
    simp only [Json.arr.sizeOf_spec]
    omega
  · have hlt := List.sizeOf_lt_of_mem hkv
    have hkv : sizeOf kv = 1 + sizeOf kv.1 + sizeOf kv.2 := rfl
    simp only [Json.obj.sizeOf_spec]
    omega

mutual

/-- Whether JSON text can be read as a value: no whole number has too many digits and no object has a
key twice. -/
def wellFormed : Json → Bool
  | .int n => decide ((Decimal.digitsOf n.natAbs).length ≤ Text.maxDigits)
  | .arr xs => wellFormedList xs
  | .obj ms => decide (ms.map Prod.fst).Nodup && wellFormedMembers ms
  | .null | .bool _ | .float _ | .str _ => true

def wellFormedList : List Json → Bool
  | [] => true
  | x :: xs => x.wellFormed && wellFormedList xs

def wellFormedMembers : List (String × Json) → Bool
  | [] => true
  | (_, x) :: rest => x.wellFormed && wellFormedMembers rest

end

theorem wellFormed_int {n : Int} :
    (int n).wellFormed = true ↔ n.natAbs < 10 ^ Text.maxDigits := by
  rw [wellFormed, decide_eq_true_eq]
  exact Nat.length_toDigits_le_iff (by omega) (by decide)

theorem lt_pow_maxDigits {n : Nat} (h : n < 10) : n < 10 ^ Text.maxDigits :=
  Nat.lt_of_lt_of_le h (Nat.le_self_pow (by decide) 10)

theorem wellFormed_arr {xs : List Json} :
    (arr xs).wellFormed = true ↔ ∀ x ∈ xs, x.wellFormed = true := by
  rw [wellFormed]
  induction xs with
  | nil => simp [wellFormedList]
  | cons x xs ih => simp [wellFormedList, ih]

theorem wellFormed_obj {ms : List (String × Json)} :
    (obj ms).wellFormed = true ↔
      (ms.map Prod.fst).Nodup ∧ ∀ kv ∈ ms, kv.2.wellFormed = true := by
  rw [wellFormed, Bool.and_eq_true, decide_eq_true_eq]
  have hmembers : wellFormedMembers ms = true ↔ ∀ kv ∈ ms, kv.2.wellFormed = true := by
    induction ms with
    | nil => simp [wellFormedMembers]
    | cons kv ms ih =>
      rw [wellFormedMembers, Bool.and_eq_true, ih]
      simp
  rw [hmembers]

theorem allFinite_arr {xs : List Json} :
    (arr xs).allFinite = true ↔ ∀ x ∈ xs, x.allFinite = true := by
  rw [allFinite]
  induction xs with
  | nil => simp [allFiniteList]
  | cons x xs ih => simp [allFiniteList, ih]

theorem allFinite_obj {ms : List (String × Json)} :
    (obj ms).allFinite = true ↔ ∀ kv ∈ ms, kv.2.allFinite = true := by
  rw [allFinite]
  induction ms with
  | nil => simp [allFiniteMembers]
  | cons kv ms ih =>
    rw [allFiniteMembers, Bool.and_eq_true, ih]
    simp

theorem finite_arr (xs : List Json) : (arr xs).finite = .arr (xs.map finite) := by
  rw [finite]
  congr 1
  induction xs with
  | nil => rfl
  | cons x xs ih => rw [finiteList, ih, List.map_cons]

theorem finite_obj (ms : List (String × Json)) :
    (obj ms).finite = .obj (ms.map fun kv => (kv.1, kv.2.finite)) := by
  rw [finite]
  congr 1
  induction ms with
  | nil => rfl
  | cons kv ms ih => rw [finiteMembers, ih, List.map_cons]

theorem sorted_arr (xs : List Json) : (arr xs).sorted = .arr (xs.map sorted) := by
  rw [sorted]
  congr 1
  induction xs with
  | nil => rfl
  | cons x xs ih => rw [sortedList, ih, List.map_cons]

/-- Where all numbers are finite there is nothing to replace. -/
theorem finite_of_allFinite {j : Json} (h : j.allFinite = true) : j.finite = j := by
  induction j using shape_induction with
  | float x => exact if_pos h
  | arr xs ih =>
    rw [finite_arr, List.map_congr_left fun x hx => ih x hx (allFinite_arr.mp h x hx), List.map_id']
  | obj ms ih =>
    have hmember : ∀ kv ∈ ms, (kv.1, kv.2.finite) = kv := fun kv hkv => by
      rw [ih kv hkv (allFinite_obj.mp h kv hkv)]
    rw [finite_obj, List.map_congr_left hmember, List.map_id']
  | _ => rfl

theorem allFinite_finite (j : Json) : j.finite.allFinite = true := by
  induction j using shape_induction with
  | float x =>
    rw [finite]
    split
    · assumption
    · rfl
  | arr xs ih =>
    rw [finite_arr, allFinite_arr]
    simpa using ih
  | obj ms ih =>
    rw [finite_obj, allFinite_obj]
    intro kv hkv
    obtain ⟨kv, hmem, rfl⟩ := List.mem_map.mp hkv
    exact ih kv hmem
  | _ => rfl

/-- The keys and the whole numbers of a value stay when numbers in it are replaced. -/
theorem wellFormed_finite (j : Json) : j.finite.wellFormed = j.wellFormed := by
  induction j using shape_induction with
  | float x =>
    rw [finite]
    split <;> rfl
  | arr xs ih =>
    rw [Bool.eq_iff_iff, finite_arr, wellFormed_arr, wellFormed_arr, List.forall_mem_map]
    exact forall₂_congr fun x hx => by rw [ih x hx]
  | obj ms ih =>
    rw [Bool.eq_iff_iff, finite_obj, wellFormed_obj, wellFormed_obj, List.map_map,
      List.forall_mem_map]
    exact and_congr_right fun _ => forall₂_congr fun kv hkv => by rw [ih kv hkv]
  | _ => rfl

end Sluice.Json
