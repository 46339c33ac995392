import Sluice.Proofs.Json.Room
import Sluice.Proofs.Run.Writing
import Sluice.Proofs.Token.RoundTrip

/-!
Tokens and the room to read them. A token that is issued holds no more levels than the serialiser went
down, and requests have two levels in JSON for each that it counts, so a reader with room for twice as
many never stops in a token of one's own.
-/

namespace Sluice

theorem ArgValue.height_toJson_le (v : ArgValue) : v.toJson.height ≤ 2 := by
  cases v with
  | single s => exact Nat.le_succ 1
  | many ss =>
    rw [toJson, Json.height_arr_le, List.forall_mem_map]
    exact fun s _ => Nat.le_refl 1

theorem Invocation.height_toJson_le (stage : Invocation) : stage.toJson.height ≤ 4 := by
  have hargs : stage.args.toJson.height ≤ 3 := by
    rw [Args.toJson, Json.height_obj_le, List.forall_mem_map]
    exact fun kv _ => kv.2.height_toJson_le
  rw [toJson, Json.height_obj_le]
  simp only [List.forall_mem_cons]
  exact ⟨show 1 ≤ 3 by decide, hargs, List.forall_mem_nil _⟩

mutual

/-- A request is two levels in JSON, its object and its list. -/
theorem Item.height_toJson_le (x : Item) : x.toJson.height ≤ 2 * x.height := by
  match x with
  | .value j =>
    rw [toJson, height]
    omega
  | .request items prompt =>
    have hitems := Item.height_toJsonList_le items
    have hlist : (Json.arr (Json.finiteList (toJsonList items))).height ≤
        2 * heightList items + 1 := by
      rw [finiteList_toJsonList, Json.height_arr_le, List.forall_mem_map]
      exact fun x hx => Json.height_finite_le (hitems x hx)
    have hone : 1 ≤ 2 * heightList items + 1 := Nat.le_add_left 1 _
    rw [toJson, height, Nat.mul_add, Json.height_obj_le]
    simp only [List.forall_mem_cons]
    exact ⟨hone, hlist, hone, List.forall_mem_nil _⟩

theorem Item.height_toJsonList_le (xs : List Item) :
    ∀ x ∈ xs, x.toJson.height ≤ 2 * heightList xs := by
  match xs with
  | [] => exact List.forall_mem_nil _
  | x :: xs =>
    have hx := Item.height_toJson_le x
    have hxs := Item.height_toJsonList_le xs
    rw [List.forall_mem_cons, heightList]
    refine ⟨by omega, fun y hy => ?_⟩
    have hy := hxs y hy
    omega

end

/-- The JSON of a continuation that fits into a token. -/
theorem Continuation.height_toJson_le {c : Continuation}
    (h : ∀ x ∈ c.items, x.height ≤ Json.maxLevels) : c.toJson.height ≤ 2 * Json.maxLevels + 2 := by
  have hpipeline : (Json.arr (c.pipeline.map Invocation.toJson)).height ≤ 5 := by
    rw [Json.height_arr_le, List.forall_mem_map]
    exact fun stage _ => stage.height_toJson_le
  have hitems : (Json.arr (Item.toJsonList c.items)).height ≤ 2 * Json.maxLevels + 1 := by
    rw [Json.height_arr_le, Item.toJsonList_eq, List.forall_mem_map]
    intro x hx
    have hx' := x.height_toJson_le
    have := h x hx
    omega
  have hscalar : 1 ≤ 2 * Json.maxLevels + 1 := Nat.le_add_left 1 _
  rw [toJson, Json.height_obj_le]
  simp only [List.forall_mem_cons]
  exact ⟨hscalar, Nat.le_trans hpipeline (by decide), hscalar, hitems, hscalar,
    List.forall_mem_nil _⟩

namespace Token

end Token

end Sluice
