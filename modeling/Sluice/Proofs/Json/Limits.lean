import Sluice.Proofs.Json.MemberOrder
import Sluice.Serialisation

/-!
What can be written, by the shape of values. The height of a value is how many levels the serialiser
goes down in it, so there has to be room for so many. Halves of characters and whole numbers that are
too long are looked for in all of its scalars and keys.
-/

namespace Sluice

/-- Why a value cannot be written: it has too many levels, a whole number in it is too long, or it
holds half a character. -/
inductive Unwritable : Failure → Prop where
  | tooManyLevels : Unwritable .tooManyLevels
  | longInText : Unwritable .longInText
  | notEncodable (half : Text.Half) : Unwritable (.notEncodable half)

/-- What fails, if it does, since something cannot be written. -/
def Writing {α : Type} (r : Except Failure α) : Prop :=
  ∀ f, r = .error f → Unwritable f

namespace Writing

variable {α β : Type} {r : Except Failure α} {f : α → Except Failure β}

theorem ok (a : α) : Writing (.ok a : Except Failure α) := by
  intro f hf
  cases hf

theorem error {f : Failure} (h : Unwritable f) : Writing (.error f : Except Failure α) := by
  intro f' hf
  cases hf
  exact h

theorem bind (hr : Writing r) (hf : ∀ a, Writing (f a)) : Writing (r >>= f) := by
  cases r with
  | error e => exact error (hr e rfl)
  | ok a => exact hf a

theorem forM {xs : List α} {f : α → Except Failure Unit} (h : ∀ x ∈ xs, Writing (f x)) :
    Writing (xs.forM f) := by
  induction xs with
  | nil => exact ok ()
  | cons x xs ih =>
    rw [List.forall_mem_cons] at h
    exact h.1.bind fun _ => ih h.2

/-- What comes to an end has come through its first step. -/
theorem exists_of_bind {b : β} (h : (r >>= f) = .ok b) : ∃ a, r = .ok a ∧ f a = .ok b := by
  cases r with
  | error e => cases h
  | ok a => exact ⟨a, rfl, h⟩

end Writing

namespace Json

mutual

/-- The levels of a value: one for a scalar, and one more than what stands in it for an array or an
object. -/
def height : Json → Nat
  | .arr xs => heightList xs + 1
  | .obj ms => heightMembers ms + 1
  | .null | .bool _ | .int _ | .float _ | .str _ => 1

def heightList : List Json → Nat
  | [] => 0
  | x :: xs => max x.height (heightList xs)

def heightMembers : List (String × Json) → Nat
  | [] => 0
  | (_, x) :: rest => max x.height (heightMembers rest)

end

section Search

variable {α : Type} {scalar : Json → Option α} {key : String → Option α}

theorem search?_arr_eq_none {xs : List Json} :
    search? scalar key (.arr xs) = none ↔ ∀ x ∈ xs, search? scalar key x = none := by
  rw [search?]
  induction xs with
  | nil => simp [searchList?]
  | cons x xs ih => simp [searchList?, ih]

theorem search?_obj_eq_none {ms : List (String × Json)} :
    search? scalar key (.obj ms) = none ↔
      ∀ kv ∈ ms, key kv.1 = none ∧ search? scalar key kv.2 = none := by
  rw [search?]
  induction ms with
  | nil => simp [searchMembers?]
  | cons kv ms ih => simp [searchMembers?, ih, and_assoc]

end Search

theorem half?_arr_eq_none {xs : List Json} : (arr xs).half? = none ↔ ∀ x ∈ xs, x.half? = none :=
  search?_arr_eq_none

theorem half?_obj_eq_none {ms : List (String × Json)} :
    (obj ms).half? = none ↔ ∀ kv ∈ ms, Text.half? kv.1.toList = none ∧ kv.2.half? = none :=
  search?_obj_eq_none

theorem half?_str (s : String) : (str s).half? = Text.half? s.toList := by
  rw [half?, search?]

theorem longNumber?_arr_eq_none {xs : List Json} :
    (arr xs).longNumber? = none ↔ ∀ x ∈ xs, x.longNumber? = none :=
  search?_arr_eq_none

theorem longNumber?_obj_eq_none {ms : List (String × Json)} :
    (obj ms).longNumber? = none ↔ ∀ kv ∈ ms, kv.2.longNumber? = none := by
  rw [longNumber?, search?_obj_eq_none]
  exact forall₂_congr fun _ _ => and_iff_right rfl

/-- The strings and keys of a value stay when numbers in it are replaced. -/
theorem half?_finite_eq_none {j : Json} : j.finite.half? = none ↔ j.half? = none := by
  induction j using shape_induction with
  | float x =>
    rw [finite]
    split <;> exact Iff.rfl
  | arr xs ih =>
    rw [finite_arr, half?_arr_eq_none, half?_arr_eq_none, List.forall_mem_map]
    exact forall₂_congr ih
  | obj ms ih =>
    rw [finite_obj, half?_obj_eq_none, half?_obj_eq_none, List.forall_mem_map]
    exact forall₂_congr fun kv hkv => and_congr_right fun _ => ih kv hkv
  | _ => exact Iff.rfl

/-- A value can be read back if its keys are its own and its whole numbers are short. -/
theorem wellFormed_iff {j : Json} :
    j.wellFormed = true ↔ j.uniqueKeys = true ∧ j.longNumber? = none := by
  induction j using shape_induction with
  | int n =>
    have hlong : (int n).longNumber? = none ↔
        (Decimal.digitsOf n.natAbs).length ≤ Text.maxDigits := by
      simp [longNumber?, search?]
    rw [hlong, wellFormed, decide_eq_true_eq]
    exact (and_iff_right rfl).symm
  | arr xs ih =>
    rw [wellFormed_arr, uniqueKeys_arr, longNumber?_arr_eq_none, ← forall₂_and]
    exact forall₂_congr ih
  | obj ms ih =>
    rw [wellFormed_obj, uniqueKeys_obj, longNumber?_obj_eq_none, and_assoc, ← forall₂_and]
    exact and_congr_right fun _ => forall₂_congr ih
  | _ => exact iff_of_true rfl ⟨rfl, rfl⟩

theorem height_arr_le {xs : List Json} {n : Nat} :
    (arr xs).height ≤ n + 1 ↔ ∀ x ∈ xs, x.height ≤ n := by
  rw [height, Nat.add_le_add_iff_right]
  induction xs with
  | nil => simp [heightList]
  | cons x xs ih => rw [heightList, Nat.max_le, ih, List.forall_mem_cons]

theorem height_obj_le {ms : List (String × Json)} {n : Nat} :
    (obj ms).height ≤ n + 1 ↔ ∀ kv ∈ ms, kv.2.height ≤ n := by
  rw [height, Nat.add_le_add_iff_right]
  induction ms with
  | nil => simp [heightMembers]
  | cons kv ms ih => rw [heightMembers, Nat.max_le, ih, List.forall_mem_cons]

/-- Nothing gets higher when numbers in it are replaced. -/
theorem height_finite_le {j : Json} {n : Nat} (h : j.height ≤ n) : j.finite.height ≤ n := by
  induction j using shape_induction generalizing n with
  | float x =>
    rw [finite]
    split <;> exact h
  | arr xs ih =>
    cases n with
    | zero => exact absurd h (Nat.not_succ_le_zero _)
    | succ n =>
      rw [height_arr_le] at h
      rw [finite_arr, height_arr_le, List.forall_mem_map]
      exact fun x hx => ih x hx (h x hx)
  | obj ms ih =>
    cases n with
    | zero => exact absurd h (Nat.not_succ_le_zero _)
    | succ n =>
      rw [height_obj_le] at h
      rw [finite_obj, height_obj_le, List.forall_mem_map]
      exact fun kv hkv => ih kv hkv (h kv hkv)
  | _ => exact h

theorem height_pos (j : Json) : 0 < j.height := by
  cases j <;> simp [height]

theorem checkKey_eq_ok {k : String} (h : Text.half? k.toList = none) : checkKey k = .ok () := by
  rw [checkKey, h]

theorem takeApartList_eq_ok {room : Nat} {xs : List Json}
    (h : ∀ x ∈ xs, takeApart room x = .ok ()) : takeApartList room xs = .ok () := by
  induction xs with
  | nil => rfl
  | cons x xs ih =>
    rw [List.forall_mem_cons] at h
    rw [takeApartList, h.1]
    exact ih h.2

theorem takeApartMembers_eq_ok {room : Nat} {ms : List (String × Json)}
    (h : ∀ kv ∈ ms, checkKey kv.1 = .ok () ∧ takeApart room kv.2 = .ok ()) :
    takeApartMembers room ms = .ok () := by
  induction ms with
  | nil => rfl
  | cons kv ms ih =>
    rw [List.forall_mem_cons] at h
    rw [takeApartMembers, h.1.1, h.1.2]
    exact ih h.2

/-- Where there is room for the height of a value, nothing but halves of characters can stop the
serialiser. -/
theorem takeApart_eq_ok {room : Nat} {j : Json} (hheight : j.height ≤ room)
    (hhalf : j.half? = none) : takeApart room j = .ok () := by
  induction j using shape_induction generalizing room with
  | arr xs ih =>
    cases room with
    | zero => exact absurd hheight (Nat.not_le.mpr (height_pos _))
    | succ room =>
      rw [height_arr_le] at hheight
      rw [half?_arr_eq_none] at hhalf
      exact takeApartList_eq_ok fun x hx => ih x hx (hheight x hx) (hhalf x hx)
  | obj ms ih =>
    cases room with
    | zero => exact absurd hheight (Nat.not_le.mpr (height_pos _))
    | succ room =>
      rw [height_obj_le] at hheight
      rw [half?_obj_eq_none] at hhalf
      exact takeApartMembers_eq_ok fun kv hkv =>
        ⟨checkKey_eq_ok (hhalf kv hkv).1, ih kv hkv (hheight kv hkv) (hhalf kv hkv).2⟩
  | _ =>
    cases room with
    | zero => exact absurd hheight (Nat.not_le.mpr (height_pos _))
    | succ room => rfl

theorem takeApartList_ok {room : Nat} {xs : List Json} (h : takeApartList room xs = .ok ()) :
    ∀ x ∈ xs, takeApart room x = .ok () := by
  induction xs with
  | nil => exact List.forall_mem_nil _
  | cons x xs ih =>
    obtain ⟨⟨⟩, hx, hrest⟩ := Writing.exists_of_bind h
    exact List.forall_mem_cons.mpr ⟨hx, ih hrest⟩

theorem takeApartMembers_ok {room : Nat} {ms : List (String × Json)}
    (h : takeApartMembers room ms = .ok ()) : ∀ kv ∈ ms, takeApart room kv.2 = .ok () := by
  induction ms with
  | nil => exact List.forall_mem_nil _
  | cons kv ms ih =>
    obtain ⟨⟨⟩, -, h⟩ := Writing.exists_of_bind h
    obtain ⟨⟨⟩, hx, hrest⟩ := Writing.exists_of_bind h
    exact List.forall_mem_cons.mpr ⟨hx, ih hrest⟩

/-- The serialiser goes down as far as it has room. -/
theorem height_le_of_takeApart {room : Nat} {j : Json} (h : takeApart room j = .ok ()) :
    j.height ≤ room := by
  induction j using shape_induction generalizing room with
  | arr xs ih =>
    cases room with
    | zero => cases h
    | succ room =>
      rw [height_arr_le]
      exact fun x hx => ih x hx (takeApartList_ok h x hx)
  | obj ms ih =>
    cases room with
    | zero => cases h
    | succ room =>
      rw [height_obj_le]
      exact fun kv hkv => ih kv hkv (takeApartMembers_ok h kv hkv)
  | _ =>
    cases room with
    | zero => cases h
    | succ room => exact Nat.succ_le_succ (Nat.zero_le room)

theorem writing_checkKey (k : String) : Writing (checkKey k) := by
  rw [checkKey]
  split
  · exact Writing.error (.notEncodable _)
  · exact Writing.ok ()

theorem writing_takeApartList {room : Nat} {xs : List Json}
    (h : ∀ x ∈ xs, Writing (takeApart room x)) : Writing (takeApartList room xs) := by
  induction xs with
  | nil => exact Writing.ok ()
  | cons x xs ih =>
    rw [List.forall_mem_cons] at h
    exact h.1.bind fun _ => ih h.2

theorem writing_takeApartMembers {room : Nat} {ms : List (String × Json)}
    (h : ∀ kv ∈ ms, Writing (takeApart room kv.2)) : Writing (takeApartMembers room ms) := by
  induction ms with
  | nil => exact Writing.ok ()
  | cons kv ms ih =>
    rw [List.forall_mem_cons] at h
    exact (writing_checkKey kv.1).bind fun _ => h.1.bind fun _ => ih h.2

theorem writing_takeApart (room : Nat) (j : Json) : Writing (takeApart room j) := by
  induction j using shape_induction generalizing room with
  | arr xs ih =>
    cases room with
    | zero => exact Writing.error .tooManyLevels
    | succ room => exact writing_takeApartList fun x hx => ih x hx room
  | obj ms ih =>
    cases room with
    | zero => exact Writing.error .tooManyLevels
    | succ room => exact writing_takeApartMembers fun kv hkv => ih kv hkv room
  | _ =>
    cases room with
    | zero => exact Writing.error .tooManyLevels
    | succ room => exact Writing.ok ()

theorem checkNumbers_eq_ok {j : Json} (h : j.longNumber? = none) : j.checkNumbers = .ok () := by
  rw [checkNumbers, h]
  rfl

theorem longNumber?_of_checkNumbers {j : Json} (h : j.checkNumbers = .ok ()) :
    j.longNumber? = none := by
  unfold checkNumbers at h
  split at h
  · cases h
  · rename_i hnone
    exact Option.not_isSome_iff_eq_none.mp hnone

theorem encodable_eq_ok {j : Json} (h : j.half? = none) (text : String) :
    j.encodable text = .ok text := by
  rw [encodable, h]

theorem half?_of_encodable {j : Json} {text out : String} (h : j.encodable text = .ok out) :
    j.half? = none := by
  unfold encodable at h
  split at h
  · cases h
  · assumption

end Json

end Sluice
