import Mathlib.Data.List.Induction
import Sluice.Json.Path
import Sluice.Proofs.Json.Shape

/-!
Keys and paths into values. An object holds the last value that was written under a key. Every path
goes through a key, and its first key is a path of its own: there is no dot in it, so it leads to the
member of that name. Any value can be put at the end of any path.
-/

namespace Sluice

namespace Text

variable {sep : Char} {cs piece : List Char}

theorem splitAt_ne_nil (sep : Char) (cs : List Char) : splitAt sep cs ≠ [] := by
  cases cs with
  | nil => exact List.cons_ne_nil _ _
  | cons c cs =>
    rw [splitAt]
    split
    · exact List.cons_ne_nil _ _
    · split
      · exact List.cons_ne_nil _ _
      · exact List.cons_ne_nil _ _

theorem splitAt_of_not_mem (h : sep ∉ cs) : splitAt sep cs = [cs] := by
  induction cs with
  | nil => rfl
  | cons c cs ih =>
    obtain ⟨hne, hmem⟩ := not_or.mp (mt List.mem_cons.mpr h)
    rw [splitAt, if_neg (Ne.symm hne), ih hmem]

theorem not_mem_of_mem_splitAt (h : piece ∈ splitAt sep cs) : sep ∉ piece := by
  induction cs generalizing piece with
  | nil =>
    rw [List.mem_singleton.mp h]
    exact List.not_mem_nil
  | cons c cs ih =>
    rw [splitAt] at h
    split at h
    · rcases List.mem_cons.mp h with rfl | h
      · exact List.not_mem_nil
      · exact ih h
    · rename_i hc
      split at h
      · rw [List.mem_singleton.mp h, List.mem_singleton]
        exact Ne.symm hc
      · rename_i first more hsplit
        rw [hsplit] at ih
        rcases List.mem_cons.mp h with rfl | h
        · rw [List.mem_cons, not_or]
          exact ⟨Ne.symm hc, ih List.mem_cons_self⟩
        · exact ih (List.mem_cons_of_mem _ h)

end Text

theorem lookup_cons_eq {α : Type} (k k' : String) (v : α) (rest : List (String × α)) :
    ((k', v) :: rest).lookup k = if k = k' then some v else rest.lookup k := by
  by_cases hk : k = k'
  · rw [if_pos hk, hk, List.lookup_cons_self]
  · rw [if_neg hk, List.lookup_cons, beq_eq_false_iff_ne.mpr hk]

namespace Json

theorem lookup_put (members : List (String × Json)) (key : String) (value : Json) (k : String) :
    (put members key value).lookup k = if k = key then some value else members.lookup k := by
  induction members with
  | nil => rw [put, lookup_cons_eq]
  | cons member members ih =>
    rw [put]
    split
    · rename_i hkey
      rw [lookup_cons_eq, lookup_cons_eq, hkey]
      split <;> rfl
    · rename_i hkey
      rw [lookup_cons_eq, lookup_cons_eq, ih]
      split
      · rename_i hk
        rw [if_neg (hk ▸ hkey)]
      · rfl

theorem lookup_distinct (written : List (String × Json)) (k : String) :
    (distinct written).lookup k = written.reverse.lookup k := by
  induction written using List.reverseRecOn with
  | nil => rfl
  | append_singleton written last ih =>
    have hput : distinct (written ++ [last]) = put (distinct written) last.1 last.2 := by
      simp only [distinct, List.foldl_append, List.foldl_cons, List.foldl_nil]
    rw [hput, lookup_put, ih, List.reverse_append, List.reverse_singleton, List.singleton_append,
      lookup_cons_eq]

theorem pathKeys_ne_nil (path : String) : pathKeys path ≠ [] := by
  rw [pathKeys, Ne, List.map_eq_nil_iff]
  exact Text.splitAt_ne_nil '.' path.toList

def firstKey (path : String) : String :=
  (pathKeys path).head (pathKeys_ne_nil path)

theorem pathKeys_eq (path : String) : pathKeys path = firstKey path :: (pathKeys path).tail :=
  (List.cons_head_tail (pathKeys_ne_nil path)).symm

theorem pathKeys_of_not_mem {path : String} (h : '.' ∉ path.toList) : pathKeys path = [path] := by
  rw [pathKeys, Text.splitAt_of_not_mem h, List.map_singleton, String.ofList_toList]

/-- A path without a dot is a key. -/
theorem firstKey_of_not_mem {path : String} (h : '.' ∉ path.toList) : firstKey path = path := by
  simp only [firstKey, pathKeys_of_not_mem h, List.head_cons]

theorem dot_not_mem_firstKey (path : String) : '.' ∉ (firstKey path).toList := by
  obtain ⟨piece, hpiece, hfirst⟩ := List.mem_map.mp (List.head_mem (pathKeys_ne_nil path))
  rw [firstKey, ← hfirst, String.toList_ofList]
  exact Text.not_mem_of_mem_splitAt hpiece

/-- A path leads through the member of its first key. -/
theorem atPath_eq (j : Json) (path : String) :
    j.atPath path = (j.get? (firstKey path)).bind fun v => v.descend (pathKeys path).tail := by
  rw [atPath, pathKeys_eq, descend]
  cases j.get? (firstKey path) <;> rfl

theorem atPath_firstKey (j : Json) (path : String) :
    j.atPath (firstKey path) = j.get? (firstKey path) := by
  have hfirst := dot_not_mem_firstKey path
  rw [atPath_eq, firstKey_of_not_mem hfirst, pathKeys_of_not_mem hfirst, List.tail_cons]
  exact Option.bind_fun_some _

/-- An object without members has nothing at any path. -/
theorem atPath_obj_nil (path : String) : (obj []).atPath path = none := by
  rw [atPath_eq]
  rfl

/-- A value at the end of a path. -/
def nest (keys : List String) (v : Json) : Json :=
  keys.foldr (fun k j => .obj [(k, j)]) v

theorem nest_cons (k : String) (keys : List String) (v : Json) :
    nest (k :: keys) v = .obj [(k, nest keys v)] := rfl

theorem descend_nest (keys : List String) (v : Json) : (nest keys v).descend keys = some v := by
  induction keys with
  | nil => rfl
  | cons k keys ih =>
    have hget : (nest (k :: keys) v).get? k = some (nest keys v) := by
      rw [nest_cons, get?, List.lookup_cons_self]
    rw [descend, hget]
    exact ih

theorem sorted_nest (keys : List String) (v : Json) :
    (nest keys v).sorted = nest keys v.sorted := by
  induction keys with
  | nil => rfl
  | cons k keys ih =>
    rw [nest_cons, nest_cons, sorted, sortedMembers, ih, sortedMembers, insertMember]

theorem wellFormed_nest (keys : List String) {v : Json} (h : v.wellFormed = true) :
    (nest keys v).wellFormed = true := by
  induction keys with
  | nil => exact h
  | cons k keys ih =>
    rw [nest_cons, wellFormed_obj]
    exact ⟨by simp, by simpa using ih⟩

theorem allFinite_nest (keys : List String) {v : Json} (h : v.allFinite = true) :
    (nest keys v).allFinite = true := by
  induction keys with
  | nil => exact h
  | cons k keys ih =>
    rw [nest_cons, allFinite_obj]
    simpa using ih

end Json

end Sluice
