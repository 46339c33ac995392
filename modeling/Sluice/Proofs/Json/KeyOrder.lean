import Sluice.Json.Path
import Sluice.Proofs.Json.Shape

/-!
Values with the members of each object in the order of their keys. Sorting moves members and nothing
else: it finds the same values under the same keys and paths, keeps what makes a value well formed,
and has nothing to do the second time. Two values that are the same once sorted differ at most in the
order of members.
-/

namespace Sluice

section Lookup

variable {α : Type}

/-- Where no key stands twice, a member is what is found under its key. -/
theorem lookup_eq_some {ms : List (String × α)} (h : (ms.map Prod.fst).Nodup) {k : String} {v : α} :
    ms.lookup k = some v ↔ (k, v) ∈ ms := by
  induction ms with
  | nil => simp
  | cons kv ms ih =>
    obtain ⟨hk, hms⟩ := List.nodup_cons.mp h
    obtain ⟨k', v'⟩ := kv
    by_cases hkey : k = k'
    · subst hkey
      have hnot : (k, v) ∉ ms := fun hmem => hk (List.mem_map.mpr ⟨(k, v), hmem, rfl⟩)
      simp [hnot, eq_comm]
    · simp [List.lookup_cons, beq_eq_false_iff_ne.mpr hkey, hkey, ih hms]

/-- Members may be found in any order. -/
theorem lookup_perm {xs ys : List (String × α)} (hperm : xs.Perm ys)
    (h : (xs.map Prod.fst).Nodup) (k : String) : xs.lookup k = ys.lookup k := by
  have hys : (ys.map Prod.fst).Nodup := (hperm.map _).nodup h
  refine Option.ext fun v => ?_
  rw [lookup_eq_some h, lookup_eq_some hys, hperm.mem_iff]

theorem lookup_map {β : Type} (f : α → β) (ms : List (String × α)) (k : String) :
    (ms.map fun kv => (kv.1, f kv.2)).lookup k = (ms.lookup k).map f := by
  induction ms with
  | nil => rfl
  | cons kv ms ih =>
    rw [List.map_cons, List.lookup_cons, List.lookup_cons, ih]
    cases k == kv.1 <;> rfl

end Lookup

namespace Json

theorem insertMember_perm (k : String) (v : Json) (ms : List (String × Json)) :
    (insertMember k v ms).Perm ((k, v) :: ms) := by
  induction ms with
  | nil => exact .refl _
  | cons kv ms ih =>
    rw [insertMember]
    split
    · exact .refl _
    · exact (ih.cons kv).trans (.swap (k, v) kv ms)

/-- Sorted members are the members with their values sorted, in some order. -/
theorem sortedMembers_perm (ms : List (String × Json)) :
    (sortedMembers ms).Perm (ms.map fun kv => (kv.1, kv.2.sorted)) := by
  induction ms with
  | nil => exact .refl _
  | cons kv ms ih =>
    rw [sortedMembers, List.map_cons]
    exact (insertMember_perm kv.1 kv.2.sorted _).trans (ih.cons _)

theorem sortedMembers_keys (ms : List (String × Json)) :
    ((sortedMembers ms).map Prod.fst).Perm (ms.map Prod.fst) := by
  have h := (sortedMembers_perm ms).map Prod.fst
  rwa [List.map_map] at h

def Ascending (ms : List (String × Json)) : Prop :=
  ms.Pairwise fun a b => a.1 < b.1

theorem insertMember_ascending {k : String} (v : Json) {ms : List (String × Json)}
    (h : Ascending ms) (hk : k ∉ ms.map Prod.fst) : Ascending (insertMember k v ms) := by
  induction ms with
  | nil => exact List.pairwise_singleton _ _
  | cons kv ms ih =>
    obtain ⟨hkv, hms⟩ := List.pairwise_cons.mp h
    obtain ⟨hne, hmem⟩ := not_or.mp (mt List.mem_cons.mpr hk)
    rw [insertMember]
    split
    · rename_i hlt
      refine List.pairwise_cons.mpr ⟨fun x hx => ?_, h⟩
      rcases List.mem_cons.mp hx with rfl | hx
      · exact hlt
      · exact String.lt_trans hlt (hkv x hx)
    · rename_i hnot
      have hle : kv.1 ≤ k := String.not_lt.mp hnot
      have hlt : kv.1 < k := String.not_le.mp fun hge => hne (String.le_antisymm hge hle)
      refine List.pairwise_cons.mpr ⟨fun x hx => ?_, ih hms hmem⟩
      rcases List.mem_cons.mp ((insertMember_perm k v ms).mem_iff.mp hx) with rfl | hx
      · exact hlt
      · exact hkv x hx

theorem sortedMembers_ascending {ms : List (String × Json)} (h : (ms.map Prod.fst).Nodup) :
    Ascending (sortedMembers ms) := by
  induction ms with
  | nil => exact .nil
  | cons kv ms ih =>
    obtain ⟨hk, hms⟩ := List.nodup_cons.mp h
    exact insertMember_ascending kv.2.sorted (ih hms) fun hmem =>
      hk ((sortedMembers_keys ms).mem_iff.mp hmem)

/-- Members that are in order, with values that are, stay as they are. -/
theorem sortedMembers_of_ascending {ms : List (String × Json)} (h : Ascending ms)
    (hvalues : ∀ kv ∈ ms, kv.2.sorted = kv.2) : sortedMembers ms = ms := by
  induction ms with
  | nil => rfl
  | cons kv ms ih =>
    obtain ⟨hkv, hms⟩ := List.pairwise_cons.mp h
    rw [sortedMembers, ih hms fun x hx => hvalues x (by simp [hx]), hvalues kv (by simp)]
    cases ms with
    | nil => rfl
    | cons kv' ms => rw [insertMember, if_pos (hkv kv' (by simp))]

theorem mem_sortedMembers {ms : List (String × Json)} {y : String × Json}
    (h : y ∈ sortedMembers ms) : ∃ kv ∈ ms, (kv.1, kv.2.sorted) = y :=
  List.mem_map.mp ((sortedMembers_perm ms).mem_iff.mp h)

/-- What is sorted is in order. -/
theorem sorted_sorted {j : Json} (h : j.wellFormed = true) : j.sorted.sorted = j.sorted := by
  induction j using shape_induction with
  | arr xs ih =>
    have hall : ∀ x ∈ xs, (sorted ∘ sorted) x = sorted x := fun x hx =>
      ih x hx (wellFormed_arr.mp h x hx)
    rw [sorted_arr, sorted_arr, List.map_map, List.map_congr_left hall]
  | obj ms ih =>
    obtain ⟨hnodup, hms⟩ := wellFormed_obj.mp h
    rw [sorted, sorted, sortedMembers_of_ascending (sortedMembers_ascending hnodup)]
    intro y hy
    obtain ⟨kv, hkv, rfl⟩ := mem_sortedMembers hy
    exact ih kv hkv (hms kv hkv)
  | _ => rfl

theorem wellFormed_sorted {j : Json} (h : j.wellFormed = true) : j.sorted.wellFormed = true := by
  induction j using shape_induction with
  | arr xs ih =>
    rw [sorted_arr, wellFormed_arr]
    intro y hy
    obtain ⟨x, hx, rfl⟩ := List.mem_map.mp hy
    exact ih x hx (wellFormed_arr.mp h x hx)
  | obj ms ih =>
    obtain ⟨hnodup, hms⟩ := wellFormed_obj.mp h
    rw [sorted, wellFormed_obj]
    refine ⟨(sortedMembers_keys ms).nodup_iff.mpr hnodup, fun y hy => ?_⟩
    obtain ⟨kv, hkv, rfl⟩ := mem_sortedMembers hy
    exact ih kv hkv (hms kv hkv)
  | _ => exact h

theorem allFinite_sorted (j : Json) : j.sorted.allFinite = j.allFinite := by
  induction j using shape_induction with
  | arr xs ih =>
    rw [Bool.eq_iff_iff, sorted_arr, allFinite_arr, allFinite_arr, List.forall_mem_map]
    exact forall₂_congr fun x hx => by rw [ih x hx]
  | obj ms ih =>
    rw [Bool.eq_iff_iff, sorted, allFinite_obj, allFinite_obj]
    have hmem (kv : String × Json) := (sortedMembers_perm ms).mem_iff (a := kv)
    simp only [hmem, List.forall_mem_map]
    exact forall₂_congr fun kv hkv => by rw [ih kv hkv]
  | _ => rfl

theorem lookup_sortedMembers {ms : List (String × Json)} (h : (ms.map Prod.fst).Nodup)
    (k : String) : (sortedMembers ms).lookup k = (ms.lookup k).map sorted := by
  rw [lookup_perm (sortedMembers_perm ms) ((sortedMembers_keys ms).nodup_iff.mpr h), lookup_map]

/-- Under a key of the sorted value stands what stood there, sorted. -/
theorem get?_sorted {j : Json} (h : j.wellFormed = true) (k : String) :
    j.sorted.get? k = (j.get? k).map sorted := by
  cases j with
  | obj ms =>
    rw [sorted, get?, get?]
    exact lookup_sortedMembers (wellFormed_obj.mp h).1 k
  | arr xs =>
    rw [sorted_arr]
    rfl
  | _ => rfl

theorem mem_of_get? {j v : Json} {k : String} (h : j.get? k = some v) :
    ∃ ms, j = .obj ms ∧ (k, v) ∈ ms := by
  cases j with
  | obj ms =>
    refine ⟨ms, rfl, ?_⟩
    obtain ⟨before, after, rfl, -⟩ := List.lookup_eq_some_iff.mp h
    simp
  | _ => cases h

theorem wellFormed_of_get? {j v : Json} {k : String} (hj : j.wellFormed = true)
    (h : j.get? k = some v) : v.wellFormed = true := by
  obtain ⟨ms, rfl, hmem⟩ := mem_of_get? h
  exact (wellFormed_obj.mp hj).2 _ hmem

theorem allFinite_of_get? {j v : Json} {k : String} (hj : j.allFinite = true)
    (h : j.get? k = some v) : v.allFinite = true := by
  obtain ⟨ms, rfl, hmem⟩ := mem_of_get? h
  exact allFinite_obj.mp hj _ hmem

/-- What passes from objects to their members passes down a path. -/
theorem of_descend {holds : Json → Prop}
    (hget : ∀ {j v : Json} {k : String}, holds j → j.get? k = some v → holds v)
    {j v : Json} {keys : List String} (hj : holds j) (h : j.descend keys = some v) : holds v := by
  induction keys generalizing j with
  | nil =>
    cases h
    exact hj
  | cons k keys ih =>
    rw [descend] at h
    split at h
    · rename_i next hnext
      exact ih (hget hj hnext) h
    · cases h

theorem wellFormed_of_descend {j v : Json} {keys : List String} (hj : j.wellFormed = true)
    (h : j.descend keys = some v) : v.wellFormed = true :=
  of_descend wellFormed_of_get? hj h

theorem allFinite_of_descend {j v : Json} {keys : List String} (hj : j.allFinite = true)
    (h : j.descend keys = some v) : v.allFinite = true :=
  of_descend allFinite_of_get? hj h

/-- Down a path of the sorted value lies what lay there, sorted. -/
theorem descend_sorted {j : Json} (h : j.wellFormed = true) (keys : List String) :
    j.sorted.descend keys = (j.descend keys).map sorted := by
  induction keys generalizing j with
  | nil => rfl
  | cons k keys ih =>
    rw [descend, descend, get?_sorted h]
    cases hnext : j.get? k with
    | none => rfl
    | some next => exact ih (wellFormed_of_get? h hnext)

/-- Values are the same but for the order of the members of objects. -/
def Same (a b : Json) : Prop :=
  a.wellFormed = true ∧ b.wellFormed = true ∧ a.sorted = b.sorted

theorem Same.refl {a : Json} (h : a.wellFormed = true) : a.Same a :=
  ⟨h, h, rfl⟩

theorem Same.symm {a b : Json} (h : a.Same b) : b.Same a :=
  ⟨h.2.1, h.1, h.2.2.symm⟩

theorem Same.trans {a b c : Json} (hab : a.Same b) (hbc : b.Same c) : a.Same c :=
  ⟨hab.1, hbc.2.1, hab.2.2.trans hbc.2.2⟩

/-- A value and the sorted value are the same. -/
theorem same_sorted {a : Json} (h : a.wellFormed = true) : a.Same a.sorted :=
  ⟨h, wellFormed_sorted h, (sorted_sorted h).symm⟩

/-- Down a path of values that are the same lie values that are the same. -/
theorem Same.descend {a b : Json} (h : a.Same b) (keys : List String) :
    Option.Rel Same (a.descend keys) (b.descend keys) := by
  have hsorted : (a.descend keys).map sorted = (b.descend keys).map sorted := by
    rw [← descend_sorted h.1, ← descend_sorted h.2.1, h.2.2]
  cases ha : a.descend keys with
  | none =>
    cases hb : b.descend keys with
    | none => exact .none
    | some w => simp [ha, hb] at hsorted
  | some v =>
    cases hb : b.descend keys with
    | none => simp [ha, hb] at hsorted
    | some w =>
      rw [ha, hb] at hsorted
      exact .some ⟨wellFormed_of_descend h.1 ha, wellFormed_of_descend h.2.1 hb,
        Option.some.inj hsorted⟩

end Json

end Sluice
