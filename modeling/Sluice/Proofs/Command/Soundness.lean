import Sluice.Proofs.Approval.Recognition
import Sluice.Proofs.Command.Plan
import Sluice.Proofs.Json.Admission

/-!
Sound registries: their commands yield JSON values or requests for such, and only the engine
announces stages. The commands that come with the program are sound, since all that they yield was
read by the JSON reader, was there before, or is a line of text.
-/

namespace Sluice

/-- A stream of items whose JSON can be read back. It announces no stage. -/
structure Stream.Sound (s : Stream) : Prop where
  quiet : s.Within fun _ e => e.announced? = none
  yields : s.Yields Item.WellFormed

def Registry.Sound (r : Registry) : Prop :=
  ∀ c ∈ r.commands, ∀ stage ctx args source output, Stream.Sound source →
    c.run stage ctx args source = .ok output → output.stream.Sound

namespace Stream

variable {s : Stream}

theorem sound_ofList {xs : List Item} (h : ∀ x ∈ xs, x.WellFormed) : (ofList xs).Sound :=
  ⟨within_ofList xs, yields_ofList h⟩

theorem Sound.collect_within (h : s.Sound) : s.collect.Within fun _ e => e.announced? = none :=
  h.quiet.collect

theorem Sound.collect_ensures (h : s.Sound) :
    s.collect.Ensures fun xs => ∀ x ∈ xs, x.WellFormed :=
  h.yields.collect

end Stream

theorem Json.wellFormed_items {j : Json} (h : j.wellFormed = true) :
    ∀ x ∈ j.items, x.WellFormed := by
  unfold Json.items
  split
  · intro x hx
    obtain ⟨y, hy, rfl⟩ := List.mem_map.mp hx
    exact wellFormed_arr.mp h y hy
  · intro x hx
    rw [List.mem_singleton.mp hx]
    exact h

namespace Item

/-- The JSON of a request can be read back if that of its items can, and only then. -/
theorem wellFormed_request {items : List Item} {prompt : String} :
    (request items prompt).WellFormed ↔ ∀ x ∈ items, x.WellFormed := by
  have hitems : (Json.arr (Json.finiteList (toJsonList items))).wellFormed = true ↔
      ∀ x ∈ items, x.WellFormed := by
    rw [← Json.finite, Json.wellFormed_finite, wellFormed_toJsonList]
  rw [WellFormed, toJson, Json.wellFormed_obj, ← hitems]
  simp [Json.wellFormed]

/-- What a request asks about can be read back if the request can. -/
theorem wellFormed_of_approval? {x : Item} {a : Approval} (h : x.WellFormed)
    (happroval : x.approval? = some a) : ∀ y ∈ a.items, y.WellFormed := by
  cases x with
  | request items prompt =>
    cases happroval
    exact wellFormed_request.mp h
  | value j =>
    obtain ⟨xs, prompt, rfl, -, hitems, -⟩ := approval?_value.mp happroval
    intro y hy
    obtain ⟨v, hv, rfl⟩ := List.mem_map.mp hy
    exact Json.wellFormed_arr.mp (Json.wellFormed_of_get? h hitems) v hv

theorem wellFormed_of_soleApproval? {xs : List Item} {a : Approval} (h : ∀ x ∈ xs, x.WellFormed)
    (hsole : soleApproval? xs = some a) : ∀ y ∈ a.items, y.WellFormed := by
  unfold soleApproval? at hsole
  split at hsole
  · exact wellFormed_of_approval? (h _ (by simp)) hsole
  · cases hsole

theorem wellFormed_stored {x : Item} (h : x.WellFormed) : x.stored.WellFormed :=
  Json.wellFormed_sorted ((Json.wellFormed_finite x.toJson).trans h)

theorem wellFormed_pick (fields : List String) {x : Item} (h : x.WellFormed) :
    (Pick.item fields x).WellFormed := by
  unfold Pick.item
  split
  · rename_i ms
    apply Json.wellFormed_distinct
    intro kv hkv
    obtain ⟨name, -, hname⟩ := List.mem_filterMap.mp hkv
    obtain ⟨v, hv, rfl⟩ := Option.map_eq_some_iff.mp hname
    exact Json.wellFormed_of_descend h hv
  · exact h

end Item

theorem Decode.wellFormed_items {x : Item} {xs : List Item} (h : x.WellFormed)
    (hitems : items x = .ok xs) : ∀ y ∈ xs, y.WellFormed := by
  unfold items at hitems
  split at hitems
  · split at hitems
    · rename_i j hread
      cases hitems
      exact Json.wellFormed_items (Json.read_wellFormed hread)
    · cases hitems
  · cases hitems
    intro y hy
    rwa [List.mem_singleton.mp hy]

theorem Exec.wellFormed_items {limit : Option Binary64} {command : String} {asJson : Bool}
    {result : ProcessResult} {xs : List Item} (h : items limit command asJson result = .ok xs) :
    ∀ x ∈ xs, x.WellFormed := by
  unfold items at h
  split at h
  · cases h
  · split at h
    · cases h
    · split at h
      · unfold jsonItems at h
        simp only at h
        split at h
        · cases h
          exact List.forall_mem_nil _
        · split at h
          · rename_i j hread
            cases h
            exact Json.wellFormed_items (Json.read_wellFormed hread)
          · cases h
      · cases h
        intro x hx
        obtain ⟨line, -, rfl⟩ := List.mem_map.mp hx
        rfl

theorem Invoke.wellFormed_items {reply : Reply} {xs : List Item} (h : items reply = .ok xs) :
    ∀ x ∈ xs, x.WellFormed := by
  unfold items at h
  split at h
  · cases h
  · simp only at h
    split at h
    · cases h
    · unfold bodyItems at h
      split at h
      · cases h
        intro x hx
        rw [List.mem_singleton.mp hx]
        rfl
      · split at h
        · rename_i j hread
          cases h
          exact Json.wellFormed_items (Json.read_wellFormed hread)
        · cases h

/-- A stage of a command that comes with the program yields items that can be read back. -/
theorem Plan.yields {limit : Option Binary64} {name : String} {r : Reader} {stage : Nat}
    {ctx : Context} {args : Args} {p : Plan} (hr : builtin? limit name = some r)
    (hp : r stage ctx args = .ok p) {source : Stream} (h : source.Yields Item.WellFormed) :
    (p.action.apply source).Yields Item.WellFormed := by
  cases decided hr hp with
  | exec =>
    refine Stream.yields_ofProgram (h.collect.bind fun _ _ => fun result => ?_)
    exact Program.ensures_ofExcept fun xs hxs => Exec.wellFormed_items hxs
  | json => exact h.expand fun x xs hx hxs => Decode.wellFormed_items hx hxs
  | head => exact h.take _
  | pick =>
    apply h.expand
    intro x xs hx hxs y hy
    cases hxs
    rw [List.mem_singleton.mp hy]
    exact Item.wellFormed_pick _ hx
  | @filter conditions =>
    apply h.expand
    intro x xs hx hxs y hy
    cases hxs
    by_cases hkeep : Condition.keeps conditions x = true
    · rw [if_pos hkeep] at hy
      rwa [List.mem_singleton.mp hy]
    · rw [if_neg hkeep] at hy
      cases hy
  | pass => exact h
  | print =>
    refine Stream.yields_ofProgram (h.collect.bind fun items hitems => ?_)
    exact (Program.ensures_ofExcept fun _ _ => trivial).bind fun text _ => fun _ => hitems
  | request =>
    refine Stream.yields_ofProgram (h.collect.bind fun items hitems => ?_)
    intro x hx
    rw [List.mem_singleton.mp hx]
    exact Item.wellFormed_request.mpr hitems
  | ask =>
    refine Stream.yields_ofProgram (h.collect.bind fun items hitems => ?_)
    unfold ask
    split
    · intro agreed
      cases agreed with
      | true => exact hitems
      | false => trivial
    · trivial
  | invoke =>
    refine Stream.yields_ofProgram (h.collect.bind fun _ _ => ?_)
    refine (Program.ensures_ofExcept fun _ _ => trivial).bind fun request _ => fun reply => ?_
    exact Program.ensures_ofExcept fun xs hxs => Invoke.wellFormed_items hxs

/-- Each command of a registry is found under its name. -/
theorem Registry.find?_of_mem {r : Registry} {c : Command} (h : c ∈ r.commands) :
    r.find? c.name = some c := by
  have hfind (cs : List Command) (hdistinct : (cs.map Command.name).Nodup) (hc : c ∈ cs) :
      cs.find? (fun d => d.name == c.name) = some c := by
    induction cs with
    | nil => cases hc
    | cons d cs ih =>
      rw [List.map_cons, List.nodup_cons] at hdistinct
      rcases List.mem_cons.mp hc with rfl | hc
      · simp
      · have hne : d.name ≠ c.name := fun heq => hdistinct.1 (heq ▸ List.mem_map_of_mem hc)
        rw [List.find?_cons_of_neg (by simpa using hne)]
        exact ih hdistinct.2 hc
  exact hfind r.commands r.distinct h

/-- The commands that come with the program are sound. -/
theorem Registry.builtin_sound (limit : Option Binary64) : (builtin limit).Sound := by
  intro c hc stage ctx args source output hsource hrun
  have hfound : (builtin limit).find? c.name = some c := find?_of_mem hc
  have hfollows := find?_builtin limit c.name
  rw [hfound] at hfollows
  generalize hr : Plan.builtin? limit c.name = reader at hfollows
  cases hfollows with
  | @some _ r hfollows =>
    rw [hfollows stage ctx args source] at hrun
    cases hp : r stage ctx args with
    | error f =>
      rw [hp] at hrun
      cases hrun
    | ok p =>
      rw [hp] at hrun
      cases hrun
      refine ⟨?_, Plan.yields hr hp hsource.yields⟩
      exact (Plan.owned hr hp).within (fun _ he => he) hsource.quiet

end Sluice
