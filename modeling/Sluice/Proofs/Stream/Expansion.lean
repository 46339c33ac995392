import Mathlib.Data.List.Forall2
import Sluice.Proofs.Stream.Laws

/-!
Expansions one behind the other. Each turns an item into a list of items or fails at it, and none
looks at an item before the one behind it asks for more. So what comes out for the first items of a
stream does not depend on the items after them, nor on whether these can be expanded.
-/

namespace Sluice

namespace Stream

variable {f : Item → Except Failure (List Item)} {fs : List (Item → Except Failure (List Item))}
  {xs ys zs : List Item} {s : Stream}

@[simp] theorem prepend_nil (s : Stream) : prepend [] s = s := rfl

@[simp] theorem ofList_nil : ofList [] = .done := rfl

@[simp] theorem prepend_cons (x : Item) (xs : List Item) (s : Stream) :
    prepend (x :: xs) s = .yield x (prepend xs s) := rfl

theorem prepend_append (xs ys : List Item) (s : Stream) :
    prepend (xs ++ ys) s = prepend xs (prepend ys s) :=
  List.foldr_append

theorem prepend_ofList (xs ys : List Item) : prepend xs (ofList ys) = ofList (xs ++ ys) :=
  (prepend_append xs ys .done).symm

/-- Items with a stream behind them are a list of items only if the stream is one. -/
theorem prepend_eq_ofList (h : prepend xs s = ofList zs) : ∃ ys, zs = xs ++ ys ∧ s = ofList ys := by
  induction xs generalizing zs with
  | nil => exact ⟨zs, rfl, h⟩
  | cons x xs ih =>
    cases zs with
    | nil => exact nomatch h
    | cons z zs =>
      obtain ⟨rfl, hrest⟩ := Stream.yield.inj h
      obtain ⟨ys, rfl, hs⟩ := ih hrest
      exact ⟨ys, rfl, hs⟩

theorem ofList_injective (h : ofList xs = ofList ys) : xs = ys := by
  have hcollect := congrArg collect h
  rw [collect_ofList, collect_ofList] at hcollect
  exact Program.pure.inj hcollect

/-- The first items of items with a stream behind them. The stream is asked for what is missing. -/
theorem take_prepend (n : Nat) (xs : List Item) (s : Stream) :
    take n (prepend xs s) = prepend (xs.take n) (take (n - xs.length) s) := by
  induction xs generalizing n with
  | nil =>
    rw [List.take_nil]
    rfl
  | cons x xs ih =>
    cases n with
    | zero => simp [take, prepend]
    | succ n => simp only [prepend_cons, take, ih, List.take_succ_cons, List.length_cons,
        Nat.add_sub_add_right]

/-- Pulling items with a stream behind them to the end runs the stream. -/
theorem run_collect_prepend (xs : List Item) (s : Stream) (script : Script) :
    (prepend xs s).collect.run script =
      ⟨(s.collect.run script).result.map (xs ++ ·), (s.collect.run script).script,
        (s.collect.run script).log⟩ := by
  induction xs with
  | nil =>
    rw [prepend_nil]
    rcases s.collect.run script with ⟨_ | _, _, _⟩ <;> rfl
  | cons x xs ih =>
    rw [prepend_cons, collect, Program.run_bind, ih]
    cases hresult : (s.collect.run script).result with
    | error e => rfl
    | ok ys => simp [Except.map, Program.run]

/-- Expanding some items either comes to a list of items, whatever is behind them, or fails among
them. -/
theorem expand_prepend (f : Item → Except Failure (List Item)) (xs : List Item) :
    (∃ ys, ∀ s, expand f (prepend xs s) = prepend ys (expand f s)) ∨
      ∃ ys e, ∀ s, expand f (prepend xs s) = prepend ys (.fail e) := by
  induction xs with
  | nil => exact .inl ⟨[], fun s => rfl⟩
  | cons x xs ih =>
    cases hx : f x with
    | error e =>
      refine .inr ⟨[], e, fun s => ?_⟩
      rw [prepend_cons, expand, hx]
      rfl
    | ok ws =>
      rcases ih with ⟨ys, hys⟩ | ⟨ys, e, hys⟩
      · refine .inl ⟨ws ++ ys, fun s => ?_⟩
        rw [prepend_cons, expand, hx, prepend_append, ← hys]
      · refine .inr ⟨ws ++ ys, e, fun s => ?_⟩
        rw [prepend_cons, expand, hx, prepend_append, ← hys s]

/-- Items that are each expanded to one item. -/
theorem expand_one_by_one (h : List.Forall₂ (fun x y => f x = .ok [y]) xs ys) :
    (ofList xs).expand f = .ofList ys := by
  induction h with
  | nil => rfl
  | cons hx _ ih =>
    change expand f (.yield _ (ofList _)) = _
    rw [expand, hx, ih]
    rfl

theorem expand_item (f : Item → Item) (xs : List Item) :
    (ofList xs).expand (fun x => .ok [f x]) = .ofList (xs.map f) :=
  expand_one_by_one (List.forall₂_map_right_iff.mpr (List.forall₂_same.mpr fun _ _ => rfl))

/-- If an item cannot be expanded, pulling to the end fails. -/
theorem collect_expand_error (h : ∃ x ∈ xs, ∃ e, f x = .error e) (script : Script) :
    ∃ e, (((ofList xs).expand f).collect.run script).result = .error e := by
  induction xs with
  | nil => exact absurd h (by simp)
  | cons x xs ih =>
    change ∃ e, ((expand f (.yield x (ofList xs))).collect.run script).result = .error e
    cases hx : f x with
    | error e =>
      rw [expand, hx]
      exact ⟨e, rfl⟩
    | ok ws =>
      have hrest : ∃ x ∈ xs, ∃ e, f x = .error e := by
        obtain ⟨y, hy, e, he⟩ := h
        rcases List.mem_cons.mp hy with rfl | hy
        · rw [hx] at he
          cases he
        · exact ⟨y, hy, e, he⟩
      obtain ⟨e, he⟩ := ih hrest
      refine ⟨e, ?_⟩
      rw [expand, hx, run_collect_prepend, he]
      rfl

def through (fs : List (Item → Except Failure (List Item))) (s : Stream) : Stream :=
  fs.foldl (fun s f => s.expand f) s

@[simp] theorem through_nil (s : Stream) : through [] s = s := rfl

@[simp] theorem through_cons (s : Stream) : through (f :: fs) s = through fs (s.expand f) := rfl

@[simp] theorem through_done (fs : List (Item → Except Failure (List Item))) :
    through fs .done = .done := by
  induction fs with
  | nil => rfl
  | cons f fs ih => exact ih

@[simp] theorem through_fail (fs : List (Item → Except Failure (List Item))) (e : Failure) :
    through fs (.fail e) = .fail e := by
  induction fs with
  | nil => rfl
  | cons f fs ih => exact ih

@[simp] theorem through_perform (fs : List (Item → Except Failure (List Item))) (stage : Nat)
    (e : Effect) (next : e.Answer → Stream) :
    through fs (.perform stage e next) = .perform stage e fun a => through fs (next a) := by
  induction fs generalizing next with
  | nil => rfl
  | cons f fs ih => exact ih _

theorem Within.through {ok : Nat → Effect → Prop} (h : s.Within ok)
    (fs : List (Item → Except Failure (List Item))) : (s.through fs).Within ok := by
  induction fs generalizing s with
  | nil => exact h
  | cons f fs ih => exact ih (h.expand f)

/-- Let some items with a stream behind them come through all expansions. Then these items come to a
part of what comes out, whatever stream is behind them, and the stream to the rest. -/
theorem through_prepend (xs : List Item) (h : through fs (prepend xs s) = ofList zs) :
    ∃ ys rest, zs = ys ++ rest ∧ (∀ s, through fs (prepend xs s) = prepend ys (through fs s)) ∧
      through fs s = ofList rest := by
  induction fs generalizing xs s with
  | nil =>
    obtain ⟨rest, rfl, hs⟩ := prepend_eq_ofList h
    exact ⟨xs, rest, rfl, fun s => rfl, hs⟩
  | cons f fs ih =>
    rw [through_cons] at h
    rcases expand_prepend f xs with ⟨ws, hws⟩ | ⟨ws, e, hws⟩
    · rw [hws] at h
      obtain ⟨ys, rest, rfl, hys, hrest⟩ := ih ws h
      refine ⟨ys, rest, rfl, fun s => ?_, hrest⟩
      rw [through_cons, hws, hys, through_cons]
    · rw [hws] at h
      obtain ⟨ys, rest, -, -, hfail⟩ := ih ws h
      rw [through_fail] at hfail
      cases rest <;> exact nomatch hfail

end Stream

end Sluice
