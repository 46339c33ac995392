import Mathlib.Algebra.Group.Nat.Defs
import Mathlib.Data.List.Forall2
import Mathlib.Data.List.Perm.Basic
import Sluice.Continuation
import Sluice.Proofs.Json.KeyOrder

/-!
What a token says. The JSON of a continuation, made proper and sorted by keys as it is kept, is read
as a continuation that restores the first one: the stages are the same but for the order in which
their arguments stand, and each item is the JSON value that it was or that stood for it.
-/

namespace Sluice

def Args.Lawful (args : Args) : Prop :=
  (args.map Prod.fst).Nodup

/-- A pipeline whose stages can be kept: no argument has two values, and the stages can be counted
with the digits that are read back. -/
structure Pipeline.Lawful (pipeline : Pipeline) : Prop where
  args : ∀ stage ∈ pipeline, stage.args.Lawful
  length : pipeline.length < 10 ^ Text.maxDigits

def Item.WellFormed (x : Item) : Prop :=
  x.toJson.wellFormed = true

def Item.stored (x : Item) : Item :=
  .value x.toJson.finite.sorted

/-- The same command with the same arguments, in any order. -/
def Invocation.Same (a b : Invocation) : Prop :=
  a.name = b.name ∧ a.args.Perm b.args

def Pipeline.Same (p q : Pipeline) : Prop :=
  List.Forall₂ Invocation.Same p q

/-- A continuation that goes on as another one does. -/
structure Continuation.Restores (restored c : Continuation) : Prop where
  pipeline : Pipeline.Same restored.pipeline c.pipeline
  resumeAt : restored.resumeAt = c.resumeAt
  items : restored.items = c.items.map Item.stored
  prompt : restored.prompt = c.prompt

/-- A continuation that can be kept: no argument has two values, and the index and the whole numbers
in the items have no more digits than are read back. -/
structure Continuation.WellFormed (c : Continuation) : Prop where
  args : ∀ stage ∈ c.pipeline, stage.args.Lawful
  resumeAt : c.resumeAt < 10 ^ Text.maxDigits
  items : ∀ x ∈ c.items, x.WellFormed

/-- A value as it is kept: proper JSON, sorted by keys. -/
def Json.kept (j : Json) : Json :=
  j.finite.sorted

namespace Json

theorem kept_arr (xs : List Json) : (arr xs).kept = .arr (xs.map kept) := by
  rw [kept, finite_arr, sorted_arr, List.map_map]
  rfl

/-- Under a key of a kept object without double keys stands what stood there, kept as well. -/
theorem get?_kept_obj {ms : List (String × Json)} (h : (ms.map Prod.fst).Nodup) (k : String) :
    (obj ms).kept.get? k = ((obj ms).get? k).map kept := by
  rw [kept, finite_obj, sorted, get?, lookup_sortedMembers (by rwa [List.map_map]), lookup_map,
    Option.map_map]
  rfl

/-- Under a key of a kept value stands what stood there, kept as well. -/
theorem get?_kept {j : Json} (h : j.wellFormed = true) (k : String) :
    j.kept.get? k = (j.get? k).map kept := by
  cases j with
  | obj ms => exact get?_kept_obj (wellFormed_obj.mp h).1 k
  | arr xs =>
    rw [kept_arr]
    rfl
  | float x =>
    rw [kept, finite]
    split <;> rfl
  | _ => rfl

end Json

namespace Checked

theorem all_map {α β γ : Type} {check : β → Checked γ} {f : α → β} {g : α → γ} {xs : List α}
    (h : ∀ x ∈ xs, check (f x) = .ok (g x)) : all check (xs.map f) = .ok (xs.map g) := by
  induction xs with
  | nil => rfl
  | cons x xs ih =>
    rw [List.map_cons, all, h x (by simp), ih fun y hy => h y (by simp [hy])]
    rfl

/-- A list whose elements are all accepted is accepted. -/
theorem all_forall₂ {α β γ : Type} {check : β → Checked γ} {f : α → β} {r : γ → α → Prop}
    {xs : List α} (h : ∀ x ∈ xs, ∃ y, check (f x) = .ok y ∧ r y x) :
    ∃ ys, all check (xs.map f) = .ok ys ∧ List.Forall₂ r ys xs := by
  induction xs with
  | nil => exact ⟨[], rfl, .nil⟩
  | cons x xs ih =>
    obtain ⟨y, hy, hr⟩ := h x (by simp)
    obtain ⟨ys, hys, hrs⟩ := ih fun z hz => h z (by simp [hz])
    exact ⟨y :: ys, by rw [List.map_cons, all, hy, hys]; rfl, .cons hr hrs⟩

end Checked

namespace ArgValue

theorem kept_toJson (v : ArgValue) : v.toJson.kept = v.toJson := by
  cases v with
  | single s => rfl
  | many ss =>
    rw [toJson, Json.kept_arr, List.map_map]
    rfl

theorem wellFormed_toJson (v : ArgValue) : v.toJson.wellFormed = true := by
  cases v with
  | single s => rfl
  | many ss =>
    rw [toJson, Json.wellFormed_arr]
    intro j hj
    obtain ⟨s, -, rfl⟩ := List.mem_map.mp hj
    rfl

/-- The value of an argument is read back, one text as one and several as several. -/
theorem argValue_toJson (v : ArgValue) : Checked.argValue v.toJson = .ok v := by
  cases v with
  | single s => rfl
  | many ss =>
    have h : Checked.all Checked.string (ss.map .str) = .ok (ss.map id) :=
      Checked.all_map fun _ _ => rfl
    rw [toJson, Checked.argValue, h, List.map_id]

end ArgValue

theorem Args.wellFormed_toJson {args : Args} (h : args.Lawful) :
    args.toJson.wellFormed = true := by
  rw [toJson, Json.wellFormed_obj, List.map_map]
  refine ⟨h, fun kv hkv => ?_⟩
  obtain ⟨⟨k, v⟩, -, rfl⟩ := List.mem_map.mp hkv
  exact v.wellFormed_toJson

/-- Arguments that are kept are read back in the order of their names. -/
theorem Args.args_kept (args : Args) :
    ∃ sorted : Args, Checked.args args.toJson.kept = .ok sorted ∧ sorted.Perm args := by
  let member (kv : String × ArgValue) : String × Json := (kv.1, kv.2.toJson)
  have hsame (kv : String × ArgValue) : (kv.1, kv.2.toJson.finite.sorted) = member kv :=
    Prod.ext rfl kv.2.kept_toJson
  have hvalues : ((args.map member).map fun kv => (kv.1, kv.2.finite)).map
      (fun kv => (kv.1, kv.2.sorted)) = args.map member := by
    rw [List.map_map, List.map_map]
    exact List.map_congr_left fun kv _ => hsame kv
  have hperm : (Json.sortedMembers ((args.map member).map fun kv => (kv.1, kv.2.finite))).Perm
      (args.map member) := by
    have h := Json.sortedMembers_perm ((args.map member).map fun kv => (kv.1, kv.2.finite))
    rwa [hvalues] at h
  have hsorted : Relation.Comp (· = List.map member ·) List.Perm
      (Json.sortedMembers ((args.map member).map fun kv => (kv.1, kv.2.finite))) args := by
    rw [List.eq_map_comp_perm]
    exact hperm
  obtain ⟨sorted, heq, hargs⟩ := hsorted
  refine ⟨sorted, ?_, hargs⟩
  have hall : Checked.all (fun kv => (Checked.argValue kv.2).map fun v => (kv.1, v))
      (sorted.map member) = .ok (sorted.map id) :=
    Checked.all_map fun kv _ => by
      simp only [member, ArgValue.argValue_toJson]
      rfl
  rw [List.map_id, ← heq] at hall
  rw [toJson, Json.kept, Json.finite_obj, Json.sorted]
  exact hall

theorem Invocation.wellFormed_toJson {stage : Invocation} (h : stage.args.Lawful) :
    stage.toJson.wellFormed = true := by
  rw [toJson, Json.wellFormed_obj]
  refine ⟨by simp, fun kv hkv => ?_⟩
  simp only [List.mem_cons, List.not_mem_nil, or_false] at hkv
  rcases hkv with rfl | rfl
  · rfl
  · exact Args.wellFormed_toJson h

/-- A stage that is kept is read back, its arguments in the order of their names. -/
theorem Invocation.invocation_kept {stage : Invocation} (h : stage.args.Lawful) :
    ∃ restored, Checked.invocation stage.toJson.kept = .ok restored ∧ restored.Same stage := by
  obtain ⟨sorted, hargs, hperm⟩ := stage.args.args_kept
  refine ⟨⟨stage.name, sorted⟩, ?_, rfl, hperm⟩
  have hwell := wellFormed_toJson h
  have hname : stage.toJson.kept.get? "name" = some (.str stage.name) :=
    Json.get?_kept hwell "name"
  have hvalue : stage.toJson.kept.get? "args" = some stage.args.toJson.kept :=
    Json.get?_kept hwell "args"
  obtain ⟨ms, hms, -⟩ := Json.mem_of_get? hname
  rw [hms] at hname hvalue ⊢
  simp only [Checked.invocation, Checked.required, Checked.optional, hname, hvalue, hargs,
    Checked.string]
  rfl

/-- A pipeline that is kept is read back stage by stage. -/
theorem Pipeline.pipeline_kept {pipeline : Pipeline} (h : ∀ stage ∈ pipeline, stage.args.Lawful) :
    ∃ restored : Pipeline,
      Checked.pipeline (Json.arr (pipeline.map Invocation.toJson)).kept = .ok restored ∧
        restored.Same pipeline := by
  obtain ⟨restored, hall, hsame⟩ :=
    Checked.all_forall₂ fun stage hstage => Invocation.invocation_kept (h stage hstage)
  refine ⟨restored, ?_, hsame⟩
  rw [Json.kept_arr, List.map_map]
  exact hall

namespace Item

theorem toJsonList_eq (xs : List Item) : toJsonList xs = xs.map toJson := by
  induction xs with
  | nil => rfl
  | cons x xs ih => rw [toJsonList, ih, List.map_cons]

/-- The items of a request in the object that stands for it. -/
theorem finiteList_toJsonList (xs : List Item) :
    Json.finiteList (toJsonList xs) = xs.map fun x => x.toJson.finite := by
  have h := Json.finite_arr (toJsonList xs)
  rw [Json.finite, toJsonList_eq, List.map_map] at h
  rw [toJsonList_eq]
  exact Json.arr.inj h

/-- The list of some items can be read back if each of them can, and only then. -/
theorem wellFormed_toJsonList {xs : List Item} :
    (Json.arr (toJsonList xs)).wellFormed = true ↔ ∀ x ∈ xs, x.WellFormed := by
  rw [Json.wellFormed_arr, toJsonList_eq, List.forall_mem_map]
  rfl

/-- Items that are kept are read back as the values that they were or that stood for them. -/
theorem items_kept (xs : List Item) :
    Checked.items (Json.arr (toJsonList xs)).kept = .ok (xs.map stored) := by
  rw [Json.kept_arr, toJsonList_eq, Checked.items, List.map_map, List.map_map]
  rfl

end Item

namespace Continuation

variable {c : Continuation}

theorem wellFormed_toJson (h : c.WellFormed) : c.toJson.wellFormed = true := by
  rw [toJson, Json.wellFormed_obj]
  refine ⟨by simp [indexKeys], fun kv hkv => ?_⟩
  simp only [List.mem_cons, List.not_mem_nil, or_false] at hkv
  rcases hkv with rfl | rfl | rfl | rfl | rfl
  · rfl
  · rw [Json.wellFormed_arr]
    intro j hj
    obtain ⟨stage, hstage, rfl⟩ := List.mem_map.mp hj
    exact Invocation.wellFormed_toJson (h.args stage hstage)
  · exact Json.wellFormed_int.mpr h.resumeAt
  · exact Item.wellFormed_toJsonList.mpr h.items
  · rfl

/-- A continuation that is kept is read back. -/
theorem ofJson_kept (h : c.WellFormed) :
    ∃ restored, ofJson c.toJson.kept = .ok restored ∧ restored.Restores c := by
  obtain ⟨pipeline, hpipeline, hsame⟩ := Pipeline.pipeline_kept h.args
  have hwell := wellFormed_toJson h
  have hlength : pipeline.length = c.pipeline.length := hsame.length_eq
  have hle : c.resumeAt ≤ pipeline.length := hlength ▸ c.resumeAt_le
  refine ⟨⟨pipeline, c.resumeAt, c.items.map Item.stored, c.prompt, hle⟩, ?_, hsame, rfl, rfl, rfl⟩
  have hindex : Checked.index (.int c.resumeAt) = .ok c.resumeAt := by
    simp [Checked.index, Checked.whole?]
  have hget₁ : c.toJson.kept.get? "pipeline" =
      some (Json.arr (c.pipeline.map Invocation.toJson)).kept := Json.get?_kept hwell "pipeline"
  have hget₂ : c.toJson.kept.get? indexKeys.1 = some (.int c.resumeAt) :=
    Json.get?_kept hwell indexKeys.1
  have hget₃ : c.toJson.kept.get? "items" = some (Json.arr (Item.toJsonList c.items)).kept :=
    Json.get?_kept hwell "items"
  have hget₄ : c.toJson.kept.get? "prompt" = some (.str c.prompt) :=
    Json.get?_kept hwell "prompt"
  simp only [ofJson, Checked.required, Checked.optional, hget₁, hget₂, hget₃, hget₄, hpipeline,
    hindex, Item.items_kept, Checked.string, ofChecked, Checked.both]
  exact dif_pos hle

end Continuation

end Sluice
