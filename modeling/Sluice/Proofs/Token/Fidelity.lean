import Sluice.Proofs.Token.RoundTrip

/-!
How faithful a token is. What comes out of it is compared with what went in value by value, with no
regard to how either of them is written: an undefined or infinite number has become null, a request
has become the object that stands for it, the members of an object may stand in another order, and
everything else is as it was.
-/

namespace Sluice

namespace Json

mutual

/-- What a value may come out of a token as. -/
def RestoredAs : Json → Json → Prop
  | .null, v => v = .null
  | .bool b, v => v = .bool b
  | .int n, v => v = .int n
  | .float x, v => v = if x.isFinite then .float x else .null
  | .str s, v => v = .str s
  | .arr xs, v => ∃ ys, v = .arr ys ∧ RestoredAsList xs ys
  | .obj ms, v => ∃ ns ns', v = .obj ns ∧ ns.Perm ns' ∧ RestoredAsMembers ms ns'

def RestoredAsList : List Json → List Json → Prop
  | [], ys => ys = []
  | x :: xs, ys => ∃ y ys', ys = y :: ys' ∧ x.RestoredAs y ∧ RestoredAsList xs ys'

def RestoredAsMembers : List (String × Json) → List (String × Json) → Prop
  | [], ns => ns = []
  | (k, x) :: ms, ns => ∃ y ns', ns = (k, y) :: ns' ∧ x.RestoredAs y ∧ RestoredAsMembers ms ns'

end

theorem restoredAsList_map {f : Json → Json} {xs : List Json} (h : ∀ x ∈ xs, x.RestoredAs (f x)) :
    RestoredAsList xs (xs.map f) := by
  induction xs with
  | nil => exact rfl
  | cons x xs ih =>
    rw [List.forall_mem_cons] at h
    exact ⟨f x, xs.map f, rfl, h.1, ih h.2⟩

theorem restoredAsMembers_map {f : Json → Json} {ms : List (String × Json)}
    (h : ∀ kv ∈ ms, kv.2.RestoredAs (f kv.2)) :
    RestoredAsMembers ms (ms.map fun kv => (kv.1, f kv.2)) := by
  induction ms with
  | nil => exact rfl
  | cons kv ms ih =>
    rw [List.forall_mem_cons] at h
    exact ⟨f kv.2, ms.map fun kv => (kv.1, f kv.2), rfl, h.1, ih h.2⟩

theorem restoredAs_kept (j : Json) : j.RestoredAs j.kept := by
  induction j using shape_induction with
  | float x =>
    rw [RestoredAs, kept, finite]
    split <;> rfl
  | arr xs ih =>
    rw [kept_arr]
    exact ⟨xs.map kept, rfl, restoredAsList_map ih⟩
  | obj ms ih =>
    have hperm := sortedMembers_perm (ms.map fun kv => (kv.1, kv.2.finite))
    rw [List.map_map] at hperm
    rw [kept, finite_obj, sorted]
    exact ⟨_, _, rfl, hperm, restoredAsMembers_map ih⟩
  | _ => exact rfl

/-- A value without undefined and infinite numbers is kept as if it had been kept before. -/
theorem kept_finite (j : Json) : j.finite.kept = j.kept := by
  rw [kept, finite_of_allFinite (allFinite_finite j), kept]

end Json

namespace Item

mutual

/-- What an item may come out of a token as. -/
def RestoredAs : Item → Json → Prop
  | .value j, v => j.RestoredAs v
  | .request items prompt, v => ∃ ns vs, v = .obj ns ∧
      ns.Perm [("type", .str requestType), ("items", .arr vs), ("prompt", .str prompt)] ∧
      RestoredAsList items vs

def RestoredAsList : List Item → List Json → Prop
  | [], vs => vs = []
  | x :: xs, vs => ∃ v vs', vs = v :: vs' ∧ x.RestoredAs v ∧ RestoredAsList xs vs'

end

/-- The elements of a list of items as a request keeps them. -/
theorem kept_items (items : List Item) :
    (Json.arr (Json.finiteList (toJsonList items))).kept =
      .arr (items.map fun x => x.toJson.kept) := by
  rw [← Json.finite, Json.kept_finite, Json.kept_arr, toJsonList_eq, List.map_map]
  rfl

mutual

theorem restoredAs_kept (x : Item) : x.RestoredAs x.toJson.kept := by
  match x with
  | .value j => exact j.restoredAs_kept
  | .request items prompt =>
    have hperm := Json.sortedMembers_perm
      [("type", .str requestType), ("items", (Json.arr (Json.finiteList (toJsonList items))).finite),
        ("prompt", .str prompt)]
    refine ⟨_, _, rfl, ?_, restoredAsList_kept items⟩
    rw [← kept_items]
    exact hperm

theorem restoredAsList_kept (xs : List Item) :
    RestoredAsList xs (xs.map fun x => x.toJson.kept) := by
  match xs with
  | [] => exact rfl
  | x :: xs => exact ⟨_, _, rfl, restoredAs_kept x, restoredAsList_kept xs⟩

end

/-- Items that come out of a token come out as what they may come out as. -/
theorem forall₂_restoredAs_stored (xs : List Item) :
    List.Forall₂ (fun x y => ∃ v, y = .value v ∧ x.RestoredAs v) xs (xs.map stored) := by
  rw [List.forall₂_map_right_iff, List.forall₂_same]
  intro x _
  exact ⟨x.toJson.kept, rfl, x.restoredAs_kept⟩

end Item

namespace Token

/-- The token of a continuation is accepted under its key and gives back the continuation: the same
stages with the same arguments, the same index and the same prompt, and for each item its value, with
null for undefined and infinite numbers and objects for requests. -/
theorem decode_faithful (key : Option (List UInt8)) {c : Continuation} (h : c.WellFormed) :
    ∃ restored, decode key (some (encode key c)) = .ok restored ∧
      restored.pipeline.Same c.pipeline ∧ restored.resumeAt = c.resumeAt ∧
      restored.prompt = c.prompt ∧
      List.Forall₂ (fun x y => ∃ v, y = .value v ∧ x.RestoredAs v) c.items restored.items := by
  obtain ⟨restored, hdecode, hrestores⟩ := decode_encode key h
  refine ⟨restored, hdecode, hrestores.pipeline, hrestores.resumeAt, hrestores.prompt, ?_⟩
  rw [hrestores.items]
  exact Item.forall₂_restoredAs_stored c.items

/-- Flags with one value and with several, a number below zero that is nought, one that is none, a
long whole number, and a request among the items. -/
theorem decode_faithful_for_mixed_items :
    let key := some (Utf8.encode "secret".toList)
    let c : Continuation := ⟨[⟨"exec", [("json", .single "true"), ("_", .many ["echo", "é"])]⟩,
        ⟨"head", [("n", .many ["2", "1"]), ("_", .many [])]⟩], 1,
      [.value (.obj [("b", .float (.finite true .zero)),
          ("a", .arr [.float .nan, .int 1180591620717411303424])]),
        .request [.value (.float (.infinite true))] "sure?"], "go on?", by decide⟩
    c.WellFormed ∧ ∃ restored, decode key (some (encode key c)) = .ok restored ∧
      restored.pipeline.Same c.pipeline ∧ restored.resumeAt = 1 ∧ restored.prompt = "go on?" ∧
      List.Forall₂ (fun x y => ∃ v, y = .value v ∧ x.RestoredAs v) c.items restored.items := by
  intro key c
  have hwell : c.WellFormed := by
    refine ⟨?_, ?_, ?_⟩
    · simp [c, Args.Lawful]
    · exact Json.lt_pow_maxDigits (show 1 < 10 by omega)
    · intro x hx
      simp only [c, List.mem_cons, List.not_mem_nil, or_false] at hx
      rcases hx with rfl | rfl
      · rfl
      · rfl
  exact ⟨hwell, decode_faithful key hwell⟩

end Token

end Sluice
