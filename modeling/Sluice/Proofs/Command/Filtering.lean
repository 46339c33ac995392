import Mathlib.Data.List.Forall2
import Sluice.Proofs.Command.Plan
import Sluice.Proofs.Stream.Expansion

/-!
What a `where` keeps of its source. An item is kept if it is an object that meets every condition, so
it does not matter in which order the conditions are, how often each of them is given, and whether
they are asked at once or one stage after the other. Every object meets a condition or the opposite
of it, also an object without the field: it meets the negated one of the two.
-/

namespace Sluice

/-- A list is read if each of its elements is. -/
theorem mapM_eq_ok_iff {α β ε : Type} {f : α → Except ε β} {xs : List α} {ys : List β} :
    xs.mapM f = .ok ys ↔ List.Forall₂ (fun x y => f x = .ok y) xs ys := by
  induction xs generalizing ys with
  | nil =>
    constructor
    · rintro ⟨⟩
      exact .nil
    · rintro ⟨⟩
      rfl
  | cons x xs ih =>
    rw [List.mapM_cons]
    constructor
    · intro h
      cases hx : f x with
      | error e =>
        rw [hx] at h
        cases h
      | ok y =>
        cases hxs : xs.mapM f with
        | error e =>
          rw [hx, hxs] at h
          cases h
        | ok rest =>
          rw [hx, hxs] at h
          cases h
          exact .cons hx (ih.mp hxs)
    · rintro (_ | ⟨hx, hxs⟩)
      rw [hx, ih.mpr hxs]
      rfl

theorem exists_mapM_iff {α β ε : Type} {f : α → Except ε β} {xs : List α} :
    (∃ ys, xs.mapM f = .ok ys) ↔ ∀ x ∈ xs, ∃ y, f x = .ok y := by
  simp only [mapM_eq_ok_iff]
  induction xs with
  | nil => exact iff_of_true ⟨[], .nil⟩ (List.forall_mem_nil _)
  | cons x xs ih =>
    rw [List.forall_mem_cons, ← ih]
    constructor
    · rintro ⟨_, _ | ⟨hx, hxs⟩⟩
      exact ⟨⟨_, hx⟩, _, hxs⟩
    · rintro ⟨⟨y, hx⟩, ys, hxs⟩
      exact ⟨y :: ys, .cons hx hxs⟩

def Item.isObject : Item → Bool
  | .value (.obj _) => true
  | _ => false

namespace Condition

variable {c : Condition} {conditions : List Condition} {words : List String} {x : Item}

/-- Conditions that are read from words are those that single words spell. -/
theorem mem_iff_of_mapM (h : words.mapM parse = .ok conditions) :
    c ∈ conditions ↔ ∃ word ∈ words, parse word = .ok c := by
  rw [mapM_eq_ok_iff] at h
  induction h with
  | nil => simp
  | @cons word d words conditions hword _ ih =>
    rw [List.mem_cons, List.exists_mem_cons_iff, hword, ih, Except.ok.injEq, eq_comm]

theorem ne_nil_of_mapM (h : words.mapM parse = .ok conditions) (hne : words ≠ []) :
    conditions ≠ [] := by
  rintro rfl
  exact hne (List.forall₂_nil_right_iff.mp (mapM_eq_ok_iff.mp h))

/-- The condition that holds where this one does not. -/
def opposite (c : Condition) : Condition :=
  { c with negated := !c.negated }

theorem holds_opposite (c : Condition) (j : Json) : c.opposite.holds j = !c.holds j := by
  rw [holds, holds, opposite]
  exact Bool.bne_not _ _

theorem isObject_of_keeps (h : keeps conditions x = true) : x.isObject = true := by
  unfold keeps at h
  split at h
  · rfl
  · cases h

/-- Only the set of the conditions matters. -/
theorem keeps_congr {conditions' : List Condition} (h : ∀ c, c ∈ conditions ↔ c ∈ conditions') :
    keeps conditions = keeps conditions' := by
  funext x
  unfold keeps
  split
  · rw [Bool.eq_iff_iff, List.all_eq_true, List.all_eq_true]
    exact forall_congr' fun c => imp_congr_left (h c)
  · rfl

/-- Several conditions keep what each of them keeps. -/
theorem keeps_cons (c : Condition) (conditions : List Condition) (x : Item) :
    keeps (c :: conditions) x = (keeps [c] x && keeps conditions x) := by
  unfold keeps
  split
  · simp only [List.all_cons, List.all_nil, Bool.and_true]
  · rfl

/-- An object is kept by a condition or by its opposite, and never by both. -/
theorem keeps_opposite (c : Condition) (x : Item) :
    keeps [c.opposite] x = (!keeps [c] x && x.isObject) := by
  unfold keeps Item.isObject
  split
  · simp only [List.all_cons, List.all_nil, Bool.and_true, holds_opposite]
  · simp only [Bool.and_false]

/-- A condition and its opposite share the objects between them. -/
theorem partition_objects (c : Condition) (items : List Item) :
    (items.filter Item.isObject).partition (keeps [c]) =
      (items.filter (keeps [c]), items.filter (keeps [c.opposite])) := by
  rw [List.partition_eq_filter_filter, List.filter_filter, List.filter_filter]
  congr 1
  · refine List.filter_congr fun x _ => ?_
    cases hkeeps : keeps [c] x with
    | false => rfl
    | true => exact isObject_of_keeps hkeeps
  · exact List.filter_congr fun x _ => (keeps_opposite c x).symm

end Condition

namespace Stream

open Condition

/-- What conditions leave of a list of items. -/
theorem expand_keep (conditions : List Condition) (items : List Item) :
    (ofList items).expand (Plan.keep conditions) = .ofList (items.filter (keeps conditions)) := by
  induction items with
  | nil => rfl
  | cons x items ih =>
    change expand _ (.yield x (ofList items)) = _
    cases hkeeps : keeps conditions x with
    | true =>
      rw [List.filter_cons_of_pos hkeeps, expand, Plan.keep, hkeeps, ih]
      rfl
    | false =>
      rw [List.filter_cons_of_neg (by simp [hkeeps]), expand, Plan.keep, hkeeps, ih]
      rfl

/-- What conditions leave that are asked one stage after the other. -/
theorem through_keep {conditions : List Condition} (hne : conditions ≠ []) (items : List Item) :
    (ofList items).through (conditions.map fun c => Plan.keep [c]) =
      .ofList (items.filter (keeps conditions)) := by
  induction conditions generalizing items with
  | nil => exact absurd rfl hne
  | cons c rest ih =>
    rw [List.map_cons, through_cons, expand_keep]
    cases rest with
    | nil => rfl
    | cons d rest =>
      rw [ih (List.cons_ne_nil d rest), List.filter_filter]
      congr 1
      exact List.filter_congr fun x _ =>
        (Bool.and_comm _ _).trans (keeps_cons c (d :: rest) x).symm

end Stream

end Sluice
