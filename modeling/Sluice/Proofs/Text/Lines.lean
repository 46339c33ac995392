import Mathlib.Data.List.Basic
import Sluice.Text.Blank

/-!
Lines of a text. Everything up to the first line break is a line, whichever of the breaks it is; so
texts without a break that are joined by line feeds come apart into the same texts.
-/

namespace Sluice.Text

variable {c : Char} {line rest : List Char}

def Unbroken (line : List Char) : Prop :=
  ∀ c ∈ line, isLineBreak c = false

theorem lines_cons_of_unbroken (h : isLineBreak c = false) (rest : List Char) :
    lines (c :: rest) =
      match lines rest with
      | [] => [[c]]
      | line :: more => (c :: line) :: more := by
  have hreturn : c ≠ '\r' := by
    rintro rfl
    cases h
  rw [lines.eq_def]
  split
  · rename_i heq
    cases heq
  · rename_i heq
    exact absurd (List.cons.inj heq).1 hreturn
  · rename_i heq
    cases heq
    rw [h]
    rfl

/-- A text in front of a line break is a line. -/
theorem lines_append_break (h : Unbroken line) (hc : isLineBreak c = true) (rest : List Char) :
    ∃ more, lines (line ++ c :: rest) = line :: more := by
  induction line with
  | nil =>
    rw [List.nil_append, lines.eq_def]
    split
    · rename_i heq
      cases heq
    · exact ⟨_, rfl⟩
    · rename_i heq
      cases heq
      rw [hc]
      exact ⟨_, rfl⟩
  | cons first line ih =>
    obtain ⟨hfirst, hline⟩ := List.forall_mem_cons.mp h
    obtain ⟨more, hmore⟩ := ih hline
    refine ⟨more, ?_⟩
    rw [List.cons_append, lines_cons_of_unbroken hfirst, hmore]

theorem lines_append_newline (h : Unbroken line) (rest : List Char) :
    lines (line ++ '\n' :: rest) = line :: lines rest := by
  induction line with
  | nil => rfl
  | cons first line ih =>
    obtain ⟨hfirst, hline⟩ := List.forall_mem_cons.mp h
    rw [List.cons_append, lines_cons_of_unbroken hfirst, ih hline]

theorem lines_of_unbroken (h : Unbroken line) (hne : line ≠ []) : lines line = [line] := by
  induction line with
  | nil => exact absurd rfl hne
  | cons first line ih =>
    obtain ⟨hfirst, hline⟩ := List.forall_mem_cons.mp h
    rw [lines_cons_of_unbroken hfirst]
    cases line with
    | nil => rfl
    | cons second line => rw [ih hline (List.cons_ne_nil _ _)]

def joinLines (texts : List (List Char)) : List Char :=
  ['\n'].intercalate texts

theorem joinLines_cons_cons (first second : List Char) (texts : List (List Char)) :
    joinLines (first :: second :: texts) = first ++ '\n' :: joinLines (second :: texts) := by
  simp [joinLines]

/-- Lines that are joined come apart again. -/
theorem lines_joinLines {texts : List (List Char)} (h : ∀ line ∈ texts, Unbroken line ∧ line ≠ []) :
    lines (joinLines texts) = texts := by
  induction texts with
  | nil => rfl
  | cons first texts ih =>
    obtain ⟨⟨hfirst, hne⟩, hrest⟩ := List.forall_mem_cons.mp h
    cases texts with
    | nil =>
      have hsingle : joinLines [first] = first := by
        simp [joinLines]
      rw [hsingle, lines_of_unbroken hfirst hne]
    | cons second texts => rw [joinLines_cons_cons, lines_append_newline hfirst, ih hrest]

theorem exists_first_break {text : List Char} (h : ¬ Unbroken text) :
    ∃ front c back, text = front ++ c :: back ∧ isLineBreak c = true ∧ Unbroken front := by
  induction text with
  | nil => exact absurd (List.forall_mem_nil _) h
  | cons c text ih =>
    cases hc : isLineBreak c with
    | true => exact ⟨[], c, text, rfl, hc, List.forall_mem_nil _⟩
    | false =>
      have htext : ¬ Unbroken text := fun hall => h (List.forall_mem_cons.mpr ⟨hc, hall⟩)
      obtain ⟨front, d, back, rfl, hd, hfront⟩ := ih htext
      exact ⟨c :: front, d, back, rfl, hd, List.forall_mem_cons.mpr ⟨hc, hfront⟩⟩

/-- If a joined text has a break of its own, one of the lines is what stands in front of a break. -/
theorem exists_broken_line {texts : List (List Char)} (h : ∃ text ∈ texts, ¬ Unbroken text) :
    ∃ front c back, front ++ c :: back ∈ texts ∧ isLineBreak c = true ∧
      front ∈ lines (joinLines texts) := by
  induction texts with
  | nil => exact absurd h (by simp)
  | cons first texts ih =>
    by_cases hfirst : Unbroken first
    · have hrest : ∃ text ∈ texts, ¬ Unbroken text := by
        obtain ⟨text, hmem, htext⟩ := h
        rcases List.mem_cons.mp hmem with rfl | hmem
        · exact absurd hfirst htext
        · exact ⟨text, hmem, htext⟩
      obtain ⟨front, c, back, hmem, hc, hline⟩ := ih hrest
      refine ⟨front, c, back, List.mem_cons_of_mem _ hmem, hc, ?_⟩
      cases texts with
      | nil => cases hmem
      | cons second texts =>
        rw [joinLines_cons_cons, lines_append_newline hfirst]
        exact List.mem_cons_of_mem _ hline
    · -- Whether a text follows or not, the joined text begins with the front and its break.
      obtain ⟨front, c, back, rfl, hc, hfront⟩ := exists_first_break hfirst
      have htail : ∃ tail, joinLines ((front ++ c :: back) :: texts) = front ++ c :: tail := by
        cases texts with
        | nil => exact ⟨back, by simp [joinLines]⟩
        | cons second texts => exact ⟨_, by rw [joinLines_cons_cons, List.append_assoc]; rfl⟩
      obtain ⟨tail, htail⟩ := htail
      obtain ⟨more, hlines⟩ := lines_append_break hfront hc tail
      refine ⟨front, c, back, List.mem_cons_self, hc, ?_⟩
      rw [htail, hlines]
      exact List.mem_cons_self

end Sluice.Text
