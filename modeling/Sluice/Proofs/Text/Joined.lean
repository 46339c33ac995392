import Mathlib.Algebra.Ring.Nat
import Mathlib.Data.List.Basic

/-!
Texts with a separator between them. The length of the whole and the places of its parts are found
from the lengths of the parts alone, so lines whose parts are equally long have their separators in
the same places.
-/

namespace Sluice.Text

variable {sep : List Char} {parts : List (List Char)}

theorem length_intercalate (sep : List Char) (parts : List (List Char)) :
    (sep.intercalate parts).length =
      (parts.map List.length).sum + sep.length * (parts.length - 1) := by
  induction parts with
  | nil => rfl
  | cons part parts ih =>
    cases parts with
    | nil => simp
    | cons next parts =>
      rw [List.intercalate_cons_cons, List.length_append, List.length_append, ih]
      simp only [List.map_cons, List.sum_cons, List.length_cons, Nat.add_sub_cancel, Nat.mul_succ]
      omega

/-- Where a part begins in a text of parts with these lengths and a separator of this length. -/
def partStart (sepLength : Nat) (lengths : List Nat) (k : Nat) : Nat :=
  ((lengths.take k).map (· + sepLength)).sum

/-- What stands there is the part with the others after it. -/
theorem drop_intercalate (sep : List Char) {parts : List (List Char)} {k : Nat}
    (hk : k < parts.length) :
    (sep.intercalate parts).drop (partStart sep.length (parts.map List.length) k) =
      sep.intercalate (parts.drop k) := by
  induction k generalizing parts with
  | zero => simp [partStart]
  | succ k ih =>
    match parts, hk with
    | part :: next :: parts, hk =>
      have hnext : k < (next :: parts).length := Nat.lt_of_succ_lt_succ hk
      have hrest := ih hnext
      have hstart : partStart sep.length ((part :: next :: parts).map List.length) (k + 1) =
          (part ++ sep).length +
            partStart sep.length ((next :: parts).map List.length) k := by
        simp [partStart]
      rw [hstart, List.intercalate_cons_cons, ← List.drop_drop, List.drop_left, hrest,
        List.drop_succ_cons]

/-- A text of parts that are so wide, each where those before it put it, and with a separator behind
each but the last. -/
structure Laid (sep : List Char) (widths : List Nat) (parts : List (List Char))
    (text : List Char) : Prop where
  widths_eq : parts.map List.length = widths
  length_eq : text.length = widths.sum + sep.length * (widths.length - 1)
  part : ∀ k part, parts[k]? = some part →
    (text.drop (partStart sep.length widths k)).take part.length = part
  separator : ∀ k part, parts[k]? = some part → k + 1 < parts.length →
    (text.drop (partStart sep.length widths k + part.length)).take sep.length = sep

theorem laid_intercalate (sep : List Char) (parts : List (List Char)) :
    Laid sep (parts.map List.length) parts (sep.intercalate parts) := by
  refine ⟨rfl, by simpa using length_intercalate sep parts, fun k part hpart => ?_,
    fun k part hpart hnext => ?_⟩
  · obtain ⟨hk, rfl⟩ := List.getElem?_eq_some_iff.mp hpart
    rw [drop_intercalate sep hk, List.drop_eq_getElem_cons hk]
    cases parts.drop (k + 1) with
    | nil => simp
    | cons next rest => simp [List.intercalate_cons_cons]
  · obtain ⟨hk, rfl⟩ := List.getElem?_eq_some_iff.mp hpart
    rw [← List.drop_drop, drop_intercalate sep hk, List.drop_eq_getElem_cons hk,
      List.drop_eq_getElem_cons hnext, List.intercalate_cons_cons]
    simp

/-- A character that is not in the separator is in the text if it is in one of its parts. -/
theorem mem_intercalate_iff {c : Char} (hsep : c ∉ sep) :
    c ∈ sep.intercalate parts ↔ ∃ part ∈ parts, c ∈ part := by
  induction parts with
  | nil => simp
  | cons part parts ih =>
    cases parts with
    | nil => simp
    | cons next parts =>
      rw [List.intercalate_cons_cons, List.mem_append, List.mem_append, ih]
      simp [hsep]

end Sluice.Text
