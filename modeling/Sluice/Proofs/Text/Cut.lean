import Mathlib.Data.List.Basic
import Sluice.Text.Blank
import Sluice.Text.Cut

/-!
Texts that are trimmed or cut. A cut at the first occurrence of a character leaves none of it in
front, a cut at the last one leaves none behind, and where the character does not occur there is no
cut; so a text that was put together around a separator comes apart into the same pieces. A separator
of several characters is found as a whole.
-/

namespace Sluice.Text

variable {sep c first second : Char} {cs before after before' after' : List Char}

theorem trimOf_eq_self {p : Char → Bool} (h : ∀ c ∈ cs, p c = false) : trimOf p cs = cs := by
  have hdrop (ds : List Char) (hds : ∀ c ∈ ds, p c = false) : ds.dropWhile p = ds := by
    cases ds with
    | nil => rfl
    | cons d ds => rw [List.dropWhile_cons_of_neg (by simp [hds d])]
  rw [trimOf, hdrop cs h, hdrop cs.reverse fun c hc => h c (List.mem_reverse.mp hc),
    List.reverse_reverse]

theorem mem_of_mem_trim (h : c ∈ trim cs) : c ∈ cs := by
  have hreversed := (List.dropWhile_sublist isBlank).subset (List.mem_reverse.mp h)
  exact (List.dropWhile_sublist isBlank).subset (List.mem_reverse.mp hreversed)

theorem cutAt?_cons_of_ne (h : c ≠ sep) :
    cutAt? [sep] (c :: cs) = (cutAt? [sep] cs).map fun (before, after) => (c :: before, after) := by
  have hstart : [sep].isPrefixOf (c :: cs) = false := by
    simp [List.isPrefixOf, Ne.symm h]
  rw [cutAt?, hstart]
  rfl

theorem cutAt?_eq_none : cutAt? [sep] cs = none ↔ sep ∉ cs := by
  induction cs with
  | nil => exact iff_of_true rfl List.not_mem_nil
  | cons c cs ih =>
    by_cases hc : c = sep
    · subst hc
      simp [cutAt?]
    · rw [cutAt?_cons_of_ne hc, Option.map_eq_none_iff, ih, List.mem_cons, not_or]
      exact (and_iff_right (Ne.symm hc)).symm

theorem cutAt?_append (h : sep ∉ before) :
    cutAt? [sep] (before ++ sep :: after) = some (before, after) := by
  induction before with
  | nil => simp [cutAt?]
  | cons c before ih =>
    obtain ⟨hne, hmem⟩ := not_or.mp (mt List.mem_cons.mpr h)
    rw [List.cons_append, cutAt?_cons_of_ne (Ne.symm hne), ih hmem]
    rfl

/-- A cut is made at the first occurrence. -/
theorem cutAt?_eq_some :
    cutAt? [sep] cs = some (before, after) ↔ cs = before ++ sep :: after ∧ sep ∉ before := by
  constructor
  · intro h
    have hmem : sep ∈ cs := by
      by_contra hnot
      rw [cutAt?_eq_none.mpr hnot] at h
      exact nomatch h
    obtain ⟨before', after', rfl, hfree⟩ := List.eq_append_cons_of_mem hmem
    rw [cutAt?_append hfree] at h
    obtain ⟨rfl, rfl⟩ := Prod.mk.inj (Option.some.inj h)
    exact ⟨rfl, hfree⟩
  · rintro ⟨rfl, hfree⟩
    exact cutAt?_append hfree

/-- What holds no beginning of a separator stays in front of the cut. -/
theorem cutAt?_append_of_not_mem (h : first ∉ before) (more cs : List Char) :
    cutAt? (first :: more) (before ++ cs) =
      (cutAt? (first :: more) cs).map fun (front, back) => (before ++ front, back) := by
  induction before with
  | nil => simp
  | cons c before ih =>
    obtain ⟨hne, hmem⟩ := not_or.mp (mt List.mem_cons.mpr h)
    have hstart : (first :: more).isPrefixOf (c :: before ++ cs) = false := by
      simp [List.isPrefixOf, hne]
    rw [List.cons_append, cutAt?, ← List.cons_append, hstart, ih hmem, Option.map_map]
    rfl

theorem cutAt?_eq_none_iff {seps : List Char} (hne : seps ≠ []) :
    cutAt? seps cs = none ↔ ¬ seps <:+: cs := by
  induction cs with
  | nil => simp [cutAt?, hne]
  | cons c cs ih =>
    rw [cutAt?, List.infix_cons_iff, not_or, ← ih, ← List.isPrefixOf_iff_prefix]
    cases seps.isPrefixOf (c :: cs) with
    | true => simp
    | false => simp

/-- What holds a separator can be parted at the first one. -/
theorem exists_first {seps : List Char} (hne : seps ≠ []) (h : seps <:+: cs) :
    ∃ before after, cs = before ++ seps ++ after ∧ ¬ seps <:+: before := by
  induction cs with
  | nil => exact absurd (List.infix_nil.mp h) hne
  | cons c cs ih =>
    by_cases hstart : seps <+: c :: cs
    · obtain ⟨after, hafter⟩ := hstart
      exact ⟨[], after, hafter.symm, fun hnil => hne (List.infix_nil.mp hnil)⟩
    · obtain ⟨before, after, rfl, hbefore⟩ := ih ((List.infix_cons_iff.mp h).resolve_left hstart)
      refine ⟨c :: before, after, rfl, fun hinfix => ?_⟩
      rcases List.infix_cons_iff.mp hinfix with hfront | hinfix
      · exact hstart (hfront.trans (by simp))
      · exact hbefore hinfix

/-- A separator of two different characters cannot begin in front of itself. -/
theorem cutAt?_append_pair (hne : first ≠ second) (h : ¬ [first, second] <:+: before)
    (after : List Char) :
    cutAt? [first, second] (before ++ first :: second :: after) = some (before, after) := by
  induction before with
  | nil => simp [cutAt?]
  | cons c before ih =>
    rw [List.infix_cons_iff, not_or] at h
    have hstart : [first, second].isPrefixOf (c :: before ++ first :: second :: after) = false := by
      rw [Bool.eq_false_iff, Ne, List.isPrefixOf_iff_prefix]
      intro hstart
      cases before with
      | nil => simp [hne.symm] at hstart
      | cons d before => exact h.1 (by simpa using hstart)
    rw [List.cons_append, cutAt?, ← List.cons_append, hstart, ih h.2]
    rfl

theorem cutAtLast?_eq_none : cutAtLast? sep cs = none ↔ sep ∉ cs := by
  induction cs with
  | nil => exact iff_of_true rfl List.not_mem_nil
  | cons c cs ih =>
    rw [List.mem_cons, not_or, ← ih, cutAtLast?]
    cases cutAtLast? sep cs with
    | some parts => simp
    | none => simp [eq_comm]

def PartsAtLast (sep : Char) (cs before after : List Char) : Prop :=
  cs = before ++ sep :: after ∧ sep ∉ after

theorem PartsAtLast.cut (h : PartsAtLast sep cs before after) :
    cutAtLast? sep cs = some (before, after) := by
  obtain ⟨rfl, hafter⟩ := h
  induction before with
  | nil =>
    rw [List.nil_append, cutAtLast?, cutAtLast?_eq_none.mpr hafter]
    exact if_pos rfl
  | cons c before ih => rw [List.cons_append, cutAtLast?, ih]

theorem partsAtLast_of_cut (h : cutAtLast? sep cs = some (before, after)) :
    PartsAtLast sep cs before after := by
  fun_induction cutAtLast? sep cs generalizing before with
  | case1 => exact nomatch h
  | case2 c rest before' after' hrest ih =>
    obtain ⟨rfl, rfl⟩ := Prod.mk.inj (Option.some.inj h)
    obtain ⟨hcs, hafter⟩ := ih hrest
    exact ⟨congrArg (c :: ·) hcs, hafter⟩
  | case3 rest hrest =>
    obtain ⟨rfl, rfl⟩ := Prod.mk.inj (Option.some.inj h)
    exact ⟨rfl, cutAtLast?_eq_none.mp hrest⟩
  | case4 => exact nomatch h

theorem PartsAtLast.unique (h : PartsAtLast sep cs before after)
    (h' : PartsAtLast sep cs before' after') : before = before' ∧ after = after' := by
  exact Prod.mk.inj (Option.some.inj (h.cut.symm.trans h'.cut))

end Sluice.Text
