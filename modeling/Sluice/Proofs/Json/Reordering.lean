import Mathlib.Data.List.Forall2
import Sluice.Proofs.Json.Admission
import Sluice.Proofs.Json.KeyOrder

/-!
Values that are the same but for the order of members, from the inside: arrays of such values are
such values, and so are objects whose members are such values under the same keys. A value without an
object of two members or more has no other order; every other value has one, for instance the one in
which all members are reversed.
-/

namespace Sluice.Json

mutual

/-- Whether no object of a value has two members or more. -/
def orderless : Json → Bool
  | .arr xs => orderlessList xs
  | .obj ms => decide (ms.length ≤ 1) && orderlessMembers ms
  | .null | .bool _ | .int _ | .float _ | .str _ => true

def orderlessList : List Json → Bool
  | [] => true
  | x :: xs => x.orderless && orderlessList xs

def orderlessMembers : List (String × Json) → Bool
  | [] => true
  | (_, x) :: rest => x.orderless && orderlessMembers rest

end

theorem orderless_arr {xs : List Json} :
    (arr xs).orderless = true ↔ ∀ x ∈ xs, x.orderless = true := by
  rw [orderless]
  induction xs with
  | nil => simp [orderlessList]
  | cons x xs ih => simp [orderlessList, ih]

theorem orderless_obj {ms : List (String × Json)} :
    (obj ms).orderless = true ↔ ms.length ≤ 1 ∧ ∀ kv ∈ ms, kv.2.orderless = true := by
  rw [orderless, Bool.and_eq_true, decide_eq_true_eq]
  have hmembers : orderlessMembers ms = true ↔ ∀ kv ∈ ms, kv.2.orderless = true := by
    induction ms with
    | nil => simp [orderlessMembers]
    | cons kv ms ih =>
      rw [orderlessMembers, Bool.and_eq_true, ih]
      simp
  rw [hmembers]

theorem orderless_sorted (j : Json) : j.sorted.orderless = j.orderless := by
  induction j using shape_induction with
  | arr xs ih =>
    rw [Bool.eq_iff_iff, sorted_arr, orderless_arr, orderless_arr, List.forall_mem_map]
    exact forall₂_congr fun x hx => by rw [ih x hx]
  | obj ms ih =>
    have hperm := sortedMembers_perm ms
    have hmem (kv : String × Json) := hperm.mem_iff (a := kv)
    rw [Bool.eq_iff_iff, sorted, orderless_obj, orderless_obj, hperm.length_eq, List.length_map]
    simp only [hmem, List.forall_mem_map]
    exact and_congr_right fun _ => forall₂_congr fun kv hkv => by rw [ih kv hkv]
  | _ => rfl

theorem sorted_of_orderless {j : Json} (h : j.orderless = true) : j.sorted = j := by
  induction j using shape_induction with
  | arr xs ih =>
    rw [sorted_arr, List.map_congr_left fun x hx => ih x hx (orderless_arr.mp h x hx), List.map_id']
  | obj ms ih =>
    obtain ⟨hlength, hms⟩ := orderless_obj.mp h
    match ms with
    | [] => rfl
    | [kv] =>
      rw [sorted, sortedMembers, sortedMembers, insertMember, ih kv (by simp) (hms kv (by simp))]
    | _ :: _ :: _ => simp at hlength
  | _ => rfl

/-- A value without an object of two members is the only one that is sorted as it is. -/
theorem eq_of_sorted_eq {a b : Json} (h : a.sorted = b.sorted) (ha : a.orderless = true) : a = b := by
  have hb : b.orderless = true := by
    rw [← orderless_sorted, ← h, orderless_sorted]
    exact ha
  rw [← sorted_of_orderless ha, h, sorted_of_orderless hb]

/-- A value without an object of two members has no other order. -/
theorem Same.eq_of_orderless {a b : Json} (h : a.Same b) (ha : a.orderless = true) : a = b :=
  eq_of_sorted_eq h.2.2 ha

theorem Same.str {s : String} {b : Json} (h : (str s).Same b) : b = .str s :=
  (h.eq_of_orderless rfl).symm

theorem Same.finite_eq {a b : Json} (h : a.Same b) : a.allFinite = b.allFinite := by
  rw [← allFinite_sorted, h.2.2, allFinite_sorted]

theorem same_arr {xs ys : List Json} (h : List.Forall₂ Same xs ys) : (arr xs).Same (.arr ys) := by
  rw [Same, wellFormed_arr, wellFormed_arr, sorted_arr, sorted_arr]
  induction h with
  | nil => simp
  | cons hxy _ ih =>
    obtain ⟨hxs, hys, hsorted⟩ := ih
    rw [List.forall_mem_cons, List.forall_mem_cons, List.map_cons, List.map_cons, hxy.2.2,
      arr.inj hsorted]
    exact ⟨⟨hxy.1, hxs⟩, ⟨hxy.2.1, hys⟩, rfl⟩

/-- What is the same as an array is an array of elements that are the same. -/
theorem Same.arr {xs : List Json} {b : Json} (h : (arr xs).Same b) :
    ∃ ys, b = .arr ys ∧ List.Forall₂ Same xs ys := by
  obtain ⟨hwell, hwell', hsorted⟩ := h
  rw [sorted_arr] at hsorted
  cases b with
  | arr ys =>
    refine ⟨ys, rfl, ?_⟩
    rw [sorted_arr] at hsorted
    have hvalues := arr.inj hsorted
    rw [wellFormed_arr] at hwell hwell'
    clear hsorted
    induction xs generalizing ys with
    | nil =>
      rw [List.map_nil, eq_comm, List.map_eq_nil_iff] at hvalues
      rw [hvalues]
      exact .nil
    | cons x xs ih =>
      cases ys with
      | nil => cases hvalues
      | cons y ys =>
        rw [List.forall_mem_cons] at hwell hwell'
        obtain ⟨hxy, hrest⟩ := List.cons.inj hvalues
        exact .cons ⟨hwell.1, hwell'.1, hxy⟩ (ih hwell.2 ys hwell'.2 hrest)
  | _ => cases hsorted

/-- Members that are the same once their values are sorted are in the same order once sorted. -/
theorem sortedMembers_eq {ms ms' : List (String × Json)} (h : (ms.map Prod.fst).Nodup)
    (hperm : (ms.map fun kv => (kv.1, kv.2.sorted)).Perm (ms'.map fun kv => (kv.1, kv.2.sorted))) :
    sortedMembers ms = sortedMembers ms' := by
  have hkeys : (ms.map Prod.fst).Perm (ms'.map Prod.fst) := by
    have h := hperm.map Prod.fst
    rwa [List.map_map, List.map_map] at h
  have hascending := sortedMembers_ascending h
  have hascending' := sortedMembers_ascending (hkeys.nodup_iff.mp h)
  refine List.Perm.eq_of_pairwise ?_ hascending hascending' ?_
  · intro a b _ _ hab hba
    exact absurd (String.lt_trans hab hba) (String.lt_irrefl a.1)
  · exact (sortedMembers_perm ms).trans (hperm.trans (sortedMembers_perm ms').symm)

/-- Members with the same keys and with values that are the same, one by one. -/
abbrev SameMembers (ms ms' : List (String × Json)) : Prop :=
  List.Forall₂ (fun kv kv' => kv.1 = kv'.1 ∧ kv.2.Same kv'.2) ms ms'

theorem SameMembers.keys {ms ms' : List (String × Json)} (h : SameMembers ms ms') :
    ms.map Prod.fst = ms'.map Prod.fst := by
  induction h with
  | nil => rfl
  | cons hkv _ ih => rw [List.map_cons, List.map_cons, hkv.1, ih]

theorem SameMembers.same {ms ms' : List (String × Json)} (h : SameMembers ms ms')
    (hnodup : (ms.map Prod.fst).Nodup) : (obj ms).Same (.obj ms') := by
  have hvalues : (∀ kv ∈ ms, kv.2.wellFormed = true) ∧ (∀ kv ∈ ms', kv.2.wellFormed = true) ∧
      ms.map (fun kv => (kv.1, kv.2.sorted)) = ms'.map fun kv => (kv.1, kv.2.sorted) := by
    clear hnodup
    induction h with
    | nil => simp
    | cons hkv _ ih =>
      obtain ⟨hms, hms', hsorted⟩ := ih
      rw [List.forall_mem_cons, List.forall_mem_cons, List.map_cons, List.map_cons, hkv.1,
        hkv.2.2.2, hsorted]
      exact ⟨⟨hkv.2.1, hms⟩, ⟨hkv.2.2.1, hms'⟩, rfl⟩
  obtain ⟨hms, hms', hsorted⟩ := hvalues
  refine ⟨wellFormed_obj.mpr ⟨hnodup, hms⟩, wellFormed_obj.mpr ⟨h.keys ▸ hnodup, hms'⟩, ?_⟩
  rw [sorted, sorted, sortedMembers_eq hnodup (.of_eq hsorted)]

theorem SameMembers.put {ms ms' : List (String × Json)} (h : SameMembers ms ms') (key : String)
    {a b : Json} (hab : a.Same b) : SameMembers (put ms key a) (put ms' key b) := by
  induction h with
  | nil => exact .cons ⟨rfl, hab⟩ .nil
  | @cons kv kv' ms ms' hkv hrest ih =>
    obtain ⟨k, v⟩ := kv
    obtain ⟨k', v'⟩ := kv'
    obtain ⟨rfl, hv⟩ := hkv
    rw [Json.put, Json.put]
    split
    · exact .cons ⟨rfl, hab⟩ hrest
    · exact .cons ⟨rfl, hv⟩ ih

theorem SameMembers.distinct {ms ms' : List (String × Json)} (h : SameMembers ms ms') :
    SameMembers (distinct ms) (distinct ms') := by
  have hfold {init init' : List (String × Json)} (hinit : SameMembers init init') :
      SameMembers (ms.foldl (fun members kv => Json.put members kv.1 kv.2) init)
        (ms'.foldl (fun members kv => Json.put members kv.1 kv.2) init') := by
    induction h generalizing init init' with
    | nil => exact hinit
    | @cons kv kv' ms ms' hkv _ ih =>
      rw [List.foldl_cons, List.foldl_cons, ← hkv.1]
      exact ih (hinit.put kv.1 hkv.2)
  exact hfold .nil

/-- Finite values that are the same but for the order of members. -/
structure Alike (a b : Json) : Prop where
  same : a.Same b
  finite : a.allFinite = true

theorem Alike.descend {a b : Json} (h : a.Alike b) (keys : List String) :
    Option.Rel Alike (a.descend keys) (b.descend keys) := by
  have hsame := h.same.descend keys
  cases ha : a.descend keys with
  | none =>
    rw [ha] at hsame
    generalize b.descend keys = w at hsame
    cases hsame
    exact .none
  | some v =>
    rw [ha] at hsame
    generalize b.descend keys = w at hsame
    cases hsame with
    | some hvw => exact .some ⟨hvw, allFinite_of_descend h.finite ha⟩

theorem Alike.symm {a b : Json} (h : a.Alike b) : b.Alike a :=
  ⟨h.same.symm, h.same.finite_eq ▸ h.finite⟩

/-- What stands under a key has a counterpart. -/
theorem Alike.get? {a b v : Json} (h : a.Alike b) {k : String} (hv : a.get? k = some v) :
    ∃ w, b.get? k = some w ∧ v.Alike w := by
  have hget (j : Json) : j.descend [k] = j.get? k := by
    rw [Json.descend]
    cases j.get? k <;> rfl
  have hvalues := h.descend [k]
  rw [hget, hget, hv] at hvalues
  cases hvalues' : b.get? k with
  | none =>
    rw [hvalues'] at hvalues
    cases hvalues
  | some w =>
    rw [hvalues'] at hvalues
    cases hvalues with
    | some hvw => exact ⟨w, rfl, hvw⟩

inductive Paired : Json → Json → Prop where
  | equal (a : Json) : Paired a a
  | arrays {xs ys : List Json} (h : List.Forall₂ Alike xs ys) : Paired (.arr xs) (.arr ys)
  | objects (ms ms' : List (String × Json)) : Paired (.obj ms) (.obj ms')

theorem Alike.paired {a b : Json} (h : a.Alike b) : Paired a b := by
  have hsorted := h.same.2.2
  cases a with
  | arr xs =>
    obtain ⟨ys, rfl, hsame⟩ := h.same.arr
    have hfinite := allFinite_arr.mp h.finite
    clear h hsorted
    apply Paired.arrays
    induction hsame with
    | nil => exact .nil
    | cons hxy _ ih =>
      rw [List.forall_mem_cons] at hfinite
      exact .cons ⟨hxy, hfinite.1⟩ (ih hfinite.2)
  | obj ms =>
    cases b with
    | obj ms' => exact .objects ms ms'
    | arr ys =>
      rw [sorted_arr] at hsorted
      cases hsorted
    | _ => cases hsorted
  | _ =>
    rw [← h.same.eq_of_orderless rfl]
    exact .equal _

mutual

/-- The value with the members of each object in the opposite order. -/
def reversed : Json → Json
  | .arr xs => .arr (reversedList xs)
  | .obj ms => .obj (reversedMembers ms).reverse
  | .null => .null
  | .bool b => .bool b
  | .int n => .int n
  | .float x => .float x
  | .str s => .str s

def reversedList : List Json → List Json
  | [] => []
  | x :: xs => x.reversed :: reversedList xs

def reversedMembers : List (String × Json) → List (String × Json)
  | [] => []
  | (k, v) :: rest => (k, v.reversed) :: reversedMembers rest

end

theorem reversed_arr (xs : List Json) : (arr xs).reversed = .arr (xs.map reversed) := by
  rw [reversed]
  congr 1
  induction xs with
  | nil => rfl
  | cons x xs ih => rw [reversedList, ih, List.map_cons]

theorem reversed_obj (ms : List (String × Json)) :
    (obj ms).reversed = .obj (ms.map fun kv => (kv.1, kv.2.reversed)).reverse := by
  rw [reversed]
  congr 2
  induction ms with
  | nil => rfl
  | cons kv ms ih => rw [reversedMembers, ih, List.map_cons]

theorem same_reversed {j : Json} (h : j.wellFormed = true) : j.Same j.reversed := by
  induction j using shape_induction with
  | arr xs ih =>
    rw [reversed_arr]
    apply same_arr
    rw [List.forall₂_map_right_iff, List.forall₂_same]
    exact fun x hx => ih x hx (wellFormed_arr.mp h x hx)
  | obj ms ih =>
    obtain ⟨hnodup, hms⟩ := wellFormed_obj.mp h
    have hvalues : SameMembers ms (ms.map fun kv => (kv.1, kv.2.reversed)) := by
      rw [SameMembers, List.forall₂_map_right_iff, List.forall₂_same]
      exact fun kv hkv => ⟨rfl, ih kv hkv (hms kv hkv)⟩
    have hsame := hvalues.same hnodup
    obtain ⟨hnodup', hms'⟩ := wellFormed_obj.mp hsame.2.1
    refine hsame.trans ⟨hsame.2.1, ?_, ?_⟩
    · rw [reversed_obj, wellFormed_obj, List.map_reverse]
      refine ⟨(List.reverse_perm _).nodup_iff.mpr hnodup', ?_⟩
      exact fun kv hkv => hms' kv (List.mem_reverse.mp hkv)
    · rw [reversed_obj, sorted, sorted]
      congr 1
      apply sortedMembers_eq hnodup'
      exact (List.reverse_perm _).symm.map _
  | _ => exact Same.refl h

/-- Of distinct elements only one at most stays in its place when they are reversed. -/
theorem length_le_one_of_reverse_eq {ks : List String} (hnodup : ks.Nodup)
    (h : ks.reverse = ks) : ks.length ≤ 1 := by
  match ks with
  | [] => exact Nat.zero_le 1
  | [_] => exact Nat.le_refl 1
  | k :: l :: rest =>
    have hlast : (l :: rest).getLast? = some k := by
      rw [← List.getLast?_cons_cons, ← List.head?_reverse, h, List.head?_cons]
    exact absurd (List.mem_of_getLast? hlast) (List.nodup_cons.mp hnodup).1

/-- Only a value without an object of two members stays as it is. -/
theorem orderless_of_reversed {j : Json} (hwell : j.wellFormed = true) (h : j.reversed = j) :
    j.orderless = true := by
  induction j using shape_induction with
  | arr xs ih =>
    rw [reversed_arr] at h
    rw [orderless_arr]
    intro x hx
    have hxs : xs.map reversed = xs.map id := (arr.inj h).trans (List.map_id xs).symm
    exact ih x hx (wellFormed_arr.mp hwell x hx) (List.map_inj_left.mp hxs x hx)
  | obj ms ih =>
    obtain ⟨hnodup, hms⟩ := wellFormed_obj.mp hwell
    rw [reversed_obj] at h
    have hmembers := obj.inj h
    have hlength : ms.length ≤ 1 := by
      have hkeys := congrArg (List.map Prod.fst) hmembers
      rw [List.map_reverse, List.map_map] at hkeys
      rw [← List.length_map]
      exact length_le_one_of_reverse_eq hnodup hkeys
    refine orderless_obj.mpr ⟨hlength, ?_⟩
    match ms with
    | [] => exact List.forall_mem_nil _
    | [kv] =>
      have hvalue : (kv.1, kv.2.reversed) = kv := (List.cons.inj hmembers).1
      rw [List.forall_mem_singleton]
      exact ih kv (by simp) (hms kv (by simp)) (congrArg Prod.snd hvalue)
    | _ :: _ :: _ => simp at hlength
  | _ => rfl

end Sluice.Json
