import Mathlib.Data.List.Nodup
import Mathlib.Data.List.Perm.Subperm
import Sluice.Proofs.Json.Reordering
import Sluice.Proofs.Run.Arrival
import Sluice.Proofs.Token.Contents

/-!
Which items stand for a request, and what of them is left in the request. A value stands for one if it
is an object with the three members of a request. It may have members besides, and its items may be
undefined or infinite numbers. The request that is made of it has neither, so a run that halts on such
an item at its end keeps the item whole only if there was nothing of the kind.
-/

namespace Sluice

namespace Item

def requestMembers (items : List Json) (prompt : String) : List (String × Json) :=
  [("type", .str requestType), ("items", .arr items), ("prompt", .str prompt)]

theorem requestMembers_nodup (items : List Json) (prompt : String) :
    ((requestMembers items prompt).map Prod.fst).Nodup := by
  simp [requestMembers]

/-- A value stands for the request whose members it has. -/
theorem approval?_value {j : Json} {a : Approval} :
    (value j).approval? = some a ↔ ∃ xs prompt, a = ⟨xs.map .value, prompt⟩ ∧
      j.get? "type" = some (.str requestType) ∧ j.get? "items" = some (.arr xs) ∧
      j.get? "prompt" = some (.str prompt) := by
  constructor
  · intro h
    rw [approval?] at h
    split at h
    · rename_i htype
      split at h
      · rename_i xs prompt hitems hprompt
        exact ⟨xs, prompt, (Option.some.inj h).symm, htype, hitems, hprompt⟩
      · cases h
    · cases h
  · rintro ⟨xs, prompt, rfl, htype, hitems, hprompt⟩
    rw [approval?, if_pos htype, hitems, hprompt]

/-- What is made of the members of a request. -/
theorem toJson_request_values (xs : List Json) (prompt : String) :
    (request (xs.map .value) prompt).toJson =
      .obj (requestMembers (xs.map Json.finite) prompt) := by
  rw [toJson, finiteList_toJsonList, List.map_map, requestMembers]
  rfl

/-- An item that is all there in the request it stands for: a request, or an object with the members
of one and no others, in any order, and items that JSON proper can hold. -/
inductive Exact : Item → Prop where
  | request (items : List Item) (prompt : String) : Exact (.request items prompt)
  | object {ms : List (String × Json)} {xs : List Json} {prompt : String}
    (hmembers : ms.Perm (requestMembers xs prompt)) (hfinite : ∀ v ∈ xs, v.allFinite = true) :
    Exact (.value (.obj ms))

/-- The members of an object that stands for a request, against those of the request: once sorted they
are the same if the object has no others and its items are JSON proper. -/
theorem sortedMembers_eq_iff {ms : List (String × Json)} {xs : List Json} {prompt : String}
    (hkeys : (ms.map Prod.fst).Nodup) (hmembers : requestMembers xs prompt ⊆ ms) :
    Json.sortedMembers (requestMembers (xs.map Json.finite) prompt) = Json.sortedMembers ms ↔
      ms.Perm (requestMembers xs prompt) ∧ ∀ v ∈ xs, v.allFinite = true := by
  have hkeys' := requestMembers_nodup (xs.map Json.finite) prompt
  constructor
  · intro h
    have hlength : ms.length = 3 := by
      rw [← List.length_map, ← (Json.sortedMembers_perm ms).length_eq, ← h,
        (Json.sortedMembers_perm _).length_eq]
      rfl
    have hsubperm : (requestMembers xs prompt).Subperm ms :=
      List.subperm_of_subset (List.Nodup.of_map _ (requestMembers_nodup xs prompt)) hmembers
    have hmem : ("items", Json.arr xs) ∈ ms := hmembers (by simp [requestMembers])
    have hitems : (Json.arr (xs.map Json.finite)).sorted = (Json.arr xs).sorted := by
      have hlookup := congrArg (List.lookup "items") h
      rw [Json.lookup_sortedMembers hkeys', Json.lookup_sortedMembers hkeys,
        (lookup_eq_some hkeys).mpr hmem] at hlookup
      exact Option.some.inj hlookup
    refine ⟨(hsubperm.perm_of_length_le (Nat.le_of_eq hlength)).symm, Json.allFinite_arr.mp ?_⟩
    rw [← Json.allFinite_sorted, ← hitems, Json.allFinite_sorted, ← Json.finite_arr,
      Json.allFinite_finite]
  · rintro ⟨hperm, hfinite⟩
    have hsame : xs.map Json.finite = xs := by
      rw [List.map_congr_left fun v hv => Json.finite_of_allFinite (hfinite v hv), List.map_id']
    rw [hsame]
    exact (Json.sortedMembers_eq hkeys (hperm.map _)).symm

/-- The object that stands for the request made of an item is the item, but for the order of members,
if the item is all there in the request, and only then. -/
theorem sorted_toItem_eq_iff {x : Item} {a : Approval}
    (hkeys : ∀ ms, x = .value (.obj ms) → (ms.map Prod.fst).Nodup) (hx : x.approval? = some a) :
    a.toItem.toJson.sorted = x.toJson.sorted ↔ x.Exact := by
  cases x with
  | request items prompt =>
    cases hx
    exact iff_of_true rfl (.request items prompt)
  | value j =>
    obtain ⟨xs, prompt, rfl, htype, hitems, hprompt⟩ := approval?_value.mp hx
    obtain ⟨ms, rfl, -⟩ := Json.mem_of_get? htype
    have hnodup := hkeys ms rfl
    rw [Json.get?, lookup_eq_some hnodup] at htype hitems hprompt
    have hmembers : requestMembers xs prompt ⊆ ms := by
      simp only [requestMembers, List.cons_subset, htype, hitems, hprompt, List.nil_subset,
        and_self]
    rw [Approval.toItem, toJson_request_values, toJson, Json.sorted, Json.sorted, Json.obj.injEq,
      sortedMembers_eq_iff hnodup hmembers]
    constructor
    · rintro ⟨hperm, hfinite⟩
      exact .object hperm hfinite
    · rintro (_ | @⟨_, ys, prompt', hperm, hfinite⟩)
      have hsame : requestMembers xs prompt ⊆ requestMembers ys prompt' := fun kv hkv =>
        hperm.subset (hmembers hkv)
      obtain ⟨rfl, rfl⟩ : xs = ys ∧ prompt = prompt' := by simpa [requestMembers] using hsame
      exact ⟨hperm, hfinite⟩

end Item

namespace Pipeline

variable {registry : Registry} {ctx : Context} {pipeline : Pipeline}

/-- A run that comes to its end with a single item that stands for a request halts at its last stage,
on that request. The request serialises to what the item does, but for the order of members, if and
only if the item is a request or has just the members of one and items that JSON proper can hold. -/
theorem kept_at_end_iff_exact (hpipeline : pipeline ≠ []) {source : Stream} {script : Script}
    {x : Item} {rendered : Bool} {a : Approval}
    (hkeys : ∀ ms, x = .value (.obj ms) → (ms.map Prod.fst).Nodup)
    (hended : ((arrive registry ctx 0 source false pipeline).run script).result =
      .ok (.ended [x] rendered)) (hx : x.approval? = some a) :
    ((run registry ctx pipeline source).run script).result =
        .ok (.haltedOn (pipeline.length - 1) a) ∧
      (a.toItem.toJson.sorted = x.toJson.sorted ↔ x.Exact) := by
  have hstages : 0 < pipeline.length := List.length_pos_of_ne_nil hpipeline
  refine ⟨?_, Item.sorted_toItem_eq_iff hkeys hx⟩
  rw [run, runFrom_arrive, Program.run_map, hended, Nat.zero_add]
  exact congrArg Except.ok (Outcome.reached_of_some hstages hx)

/-- An object with the members of a request in another order. -/
theorem reordered_request_kept :
    let x : Item := .value (.obj [("prompt", .str "ok?"), ("items", .arr [.int 1]),
      ("type", .str Item.requestType)])
    let a : Approval := ⟨[.value (.int 1)], "ok?"⟩
    let registry : Registry := ⟨builtinCommands none, by decide⟩
    ((run registry ⟨.tool, [], false⟩ [⟨"json", Args.empty⟩] (.ofList [x])).run .empty).result =
        .ok (.haltedOn 0 a) ∧ a.toItem.toJson.sorted = x.toJson.sorted := by
  intro x a registry
  have hkeys : ∀ ms, x = .value (.obj ms) → (ms.map Prod.fst).Nodup := by
    intro ms hms
    obtain rfl := Json.obj.inj (Item.value.inj hms)
    decide
  have hended : ((arrive registry ⟨.tool, [], false⟩ 0 (.ofList [x]) false
      [⟨"json", Args.empty⟩]).run .empty).result = .ok (.ended [x] false) := rfl
  have hexact : x.Exact :=
    .object (List.reverse_perm (Item.requestMembers [.int 1] "ok?")) (by decide)
  obtain ⟨hrun, hkept⟩ := kept_at_end_iff_exact (List.cons_ne_nil _ _) hkeys hended rfl
  exact ⟨hrun, hkept.mpr hexact⟩

/-- An object with a member that requests do not have halts the run, and the request it halts on does
not have the member. -/
theorem extra_member_lost :
    let x : Item := .value (.obj [("type", .str Item.requestType), ("items", .arr [.int 1]),
      ("prompt", .str "ok?"), ("by", .str "me")])
    let a : Approval := ⟨[.value (.int 1)], "ok?"⟩
    let registry : Registry := ⟨builtinCommands none, by decide⟩
    ((arrive registry ⟨.tool, [], false⟩ 0 (.ofList [x]) false
        [⟨"json", Args.empty⟩]).run .empty).result = .ok (.ended [x] false) ∧
      ((run registry ⟨.tool, [], false⟩ [⟨"json", Args.empty⟩] (.ofList [x])).run .empty).result =
        .ok (.haltedOn 0 a) ∧
      a.toItem.toJson.sorted ≠ x.toJson.sorted := by
  refine ⟨rfl, rfl, ?_⟩
  decide

end Pipeline

end Sluice
