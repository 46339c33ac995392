import Sluice.Proofs.Approval.Halt
import Sluice.Proofs.Command.Soundness
import Sluice.Proofs.Run.Arrival
import Sluice.Proofs.Stream.Notes

/-!
What asking for a halt costs when there is nothing to approve. A stage that asks is pulled to its end
before the next stage is looked at, and its items are replayed. Over stages that have no effect but
notes this cannot be told from the outcome: the replayed list is what the stream of the stage is but
for its notes, and no command looks at the notes of its source.
-/

namespace Sluice

/-- An action that does not gather its source does not look at the notes of it. -/
theorem Stream.StripsTo.apply {s t : Stream} (h : s.StripsTo t) {action : Action}
    (haction : ∀ k, action ≠ .gather k) : (action.apply s).StripsTo (action.apply t) := by
  cases action with
  | pass => exact h
  | expand f => exact h.expand f
  | take n => exact h.take n
  | gather k => exact absurd rfl (haction k)

namespace Invocation

/-- A stage of a probe. In a second registry the probe is the same with its halt flag off. -/
def Probes (registry lazy : Registry) (stage : Invocation) : Prop :=
  ∃ help kind halt rendered, .probe stage.name help kind halt rendered ∈ registry.commands ∧
    .probe stage.name help kind false rendered ∈ lazy.commands

def Asks (registry : Registry) (stage : Invocation) : Prop :=
  ∃ help kind rendered, .probe stage.name help kind true rendered ∈ registry.commands

/-- A stage whose output is the same, but for notes, for sources that are the same but for notes. It
refuses its arguments or not whatever its source is. In a second registry it does the same and never
asks to halt; in the first one it does so only if it is a probe. -/
inductive Blind (registry lazy : Registry) (ctx : Context) (index : Nat) (stage : Invocation) :
    Prop where
  | refuses {c c' : Command} {f : Failure} (hfind : registry.find? stage.name = some c)
    (hrun : ∀ source, c.run index ctx stage.args source = .error f)
    (hfind' : lazy.find? stage.name = some c')
    (hrun' : ∀ source, c'.run index ctx stage.args source = .error f)
  | makes {c c' : Command} {make : Stream → Stream} (bare : Stream → Stream)
    {rendered halt : Bool} (hfind : registry.find? stage.name = some c)
    (hrun : ∀ source, c.run index ctx stage.args source = .ok ⟨make source, rendered, halt⟩)
    (hfind' : lazy.find? stage.name = some c')
    (hrun' : ∀ source, c'.run index ctx stage.args source = .ok ⟨make source, rendered, false⟩)
    (hbare : ∀ s t, s.StripsTo t → (make s).StripsTo (bare t))
    (hasks : halt = true → stage.Asks registry)

variable {limit : Option Binary64} {registry lazy : Registry} {stage : Invocation}

theorem Probes.blind (h : stage.Probes registry lazy) (ctx : Context) (index : Nat) :
    stage.Blind registry lazy ctx index := by
  obtain ⟨help, kind, halt, rendered, hmem, hmem'⟩ := h
  have hfind := Registry.find?_of_mem hmem
  have hfind' := Registry.find?_of_mem hmem'
  have hasks (hhalt : halt = true) : stage.Asks registry := ⟨help, kind, rendered, hhalt ▸ hmem⟩
  cases kind with
  | tap =>
    refine .makes id hfind (fun _ => rfl) hfind' (fun _ => rfl) (fun s t hst => ?_) hasks
    exact hst.tap index stage.name
  | emit items =>
    refine .makes (fun t => Probe.after (.ofList items) t.collect) hfind (fun _ => rfl) hfind'
      (fun _ => rfl) (fun s t hst => ?_) hasks
    exact hst.after (Stream.stripsTo_produce index stage.name items)
  | count last =>
    have hcount := Stream.stripsTo_produce index stage.name
      ((List.range (last + 1)).map fun (k : Nat) => .value (.int k))
    exact .makes (fun _ => .ofList _) hfind (fun _ => rfl) hfind' (fun _ => rfl)
      (fun s t _ => hcount) hasks
  | failAfter n f =>
    refine .makes (Probe.failAfter f n) hfind (fun _ => rfl) hfind' (fun _ => rfl)
      (fun s t hst => ?_) hasks
    exact hst.failAfter f n
  | refuse e => exact .refuses hfind (fun _ => rfl) hfind' fun _ => rfl

/-- A command that gathers nothing and never asks to halt. -/
theorem blind_of_follows {c : Command} {r : Plan.Reader} (hfollows : c.Follows r)
    (hfind : registry.find? stage.name = some c) (hfind' : lazy.find? stage.name = some c)
    {ctx : Context} {index : Nat}
    (hplan : ∀ p, r index ctx stage.args = .ok p → p.halt = false ∧ ∀ k, p.action ≠ .gather k) :
    stage.Blind registry lazy ctx index := by
  have hrun (source : Stream) := hfollows index ctx stage.args source
  cases hp : r index ctx stage.args with
  | error f =>
    have hrefused (source : Stream) : c.run index ctx stage.args source = .error f := by
      rw [hrun, hp]
      rfl
    exact .refuses hfind hrefused hfind' hrefused
  | ok p =>
    obtain ⟨hhalt, haction⟩ := hplan p hp
    have hmade (source : Stream) : c.run index ctx stage.args source =
        .ok ⟨p.action.apply source, p.rendered, false⟩ := by
      rw [hrun, hp, ← hhalt]
      rfl
    exact .makes p.action.apply hfind hmade hfind' hmade (fun s t hst => hst.apply haction) nofun

theorem blind_of_mem (hbuiltin : builtinCommands limit ⊆ registry.commands)
    (hlazy : builtinCommands limit ⊆ lazy.commands)
    (hname : stage.name ∈ ["json", "head", "pick", "where"]) (ctx : Context) (index : Nat) :
    stage.Blind registry lazy ctx index := by
  have hblind (c : Command) (r : Plan.Reader) (hstage : stage.name = c.name)
      (hc : c ∈ builtinCommands limit) (hfollows : c.Follows r)
      (hr : Plan.builtin? limit stage.name = some r) : stage.Blind registry lazy ctx index := by
    have hfind : registry.find? stage.name = some c :=
      hstage ▸ Registry.find?_of_mem (hbuiltin hc)
    have hfind' : lazy.find? stage.name = some c := hstage ▸ Registry.find?_of_mem (hlazy hc)
    refine blind_of_follows hfollows hfind hfind' fun p hp => ?_
    have hdecided := Plan.decided hr hp
    generalize stage.name = name at hname hdecided
    cases hdecided with
    | json => exact ⟨rfl, nofun⟩
    | head => exact ⟨rfl, nofun⟩
    | pick => exact ⟨rfl, nofun⟩
    | filter => exact ⟨rfl, nofun⟩
    | _ => simp at hname
  have hcases := hname
  simp only [List.mem_cons, List.not_mem_nil, or_false] at hcases
  rcases hcases with hjson | hhead | hpick | hwhere
  · exact hblind .json Plan.json hjson (by simp [builtinCommands]) Command.json_follows
      (hjson ▸ rfl)
  · exact hblind .head Plan.head hhead (by simp [builtinCommands]) Command.head_follows
      (hhead ▸ rfl)
  · exact hblind .pick Plan.pick hpick (by simp [builtinCommands]) Command.pick_follows
      (hpick ▸ rfl)
  · exact hblind .filter Plan.filter hwhere (by simp [builtinCommands]) Command.filter_follows
      (hwhere ▸ rfl)

end Invocation

namespace Pipeline

variable {limit : Option Binary64} {registry lazy : Registry} {ctx : Context} {index : Nat}
  {pipeline : Pipeline} {s t u : Stream}

/-- A run with its halt checks on a source and a run without them on a source that is the same but for
notes come to the same, if at each check the items that are pulled are no request. -/
theorem result_eq_lazy (hblind : ∀ stage ∈ pipeline, ∀ i, stage.Blind registry lazy ctx i)
    (hs : s.StripsTo u) (ht : t.StripsTo u) (rendered : Bool) (script : Script)
    (hdrained : ∀ h stage, pipeline[h]? = some stage → stage.Asks registry →
      ∃ xs, (((opened lazy ctx index t (pipeline.take (h + 1))).bind Stream.collect).run
        script).result = .ok xs ∧ Item.soleApproval? xs = none) :
    ((runFrom registry ctx index s rendered pipeline).run script).result =
      ((runFrom lazy ctx index t rendered pipeline).run script).result := by
  induction pipeline generalizing index s t u rendered with
  | nil =>
    rw [runFrom, runFrom, finish_reached, finish_reached, Program.run_map, Program.run_map,
      (hs.run script).1, (ht.run script).1]
  | cons stage rest ih =>
    rw [List.forall_mem_cons] at hblind
    cases hblind.1 index with
    | refuses hfind hrun hfind' hrun' =>
      simp only [runFrom, hfind, hfind', Program.run, hrun, hrun']
    | @makes c c' make bare shown halt hfind hrun hfind' hrun' hbare hasks =>
      have hmakeS := hbare s u hs
      have hmakeT := hbare t u ht
      have hlazy : ((runFrom lazy ctx index t rendered (stage :: rest)).run script).result =
          ((runFrom lazy ctx (index + 1) (make t) shown rest).run script).result := by
        simp only [runFrom, hfind', Program.run, hrun', Script.answer, Bool.false_eq_true,
          ↓reduceIte]
      have hrest : ∀ h later, rest[h]? = some later → later.Asks registry →
          ∃ xs, (((opened lazy ctx (index + 1) (make t) (rest.take (h + 1))).bind
            Stream.collect).run script).result = .ok xs ∧ Item.soleApproval? xs = none := by
        intro h later hlater hasked
        have hopened := hdrained (h + 1) later hlater hasked
        simpa only [List.take_succ_cons, opened, hfind', hrun', Program.bind_perform, Program.run,
          Script.answer] using hopened
      rw [hlazy]
      cases halt with
      | false =>
        have heager : ((runFrom registry ctx index s rendered (stage :: rest)).run script).result =
            ((runFrom registry ctx (index + 1) (make s) shown rest).run script).result := by
          simp only [runFrom, hfind, Program.run, hrun, Script.answer, Bool.false_eq_true,
            ↓reduceIte]
        rw [heager]
        exact ih hblind.2 hmakeS hmakeT shown hrest
      | true =>
        obtain ⟨xs, hxs, hsole⟩ := hdrained 0 stage rfl (hasks rfl)
        simp only [List.take_succ_cons, List.take_zero, opened, hfind', hrun',
          Program.bind_perform, Program.run, Script.answer, Program.bind_pure] at hxs
        -- From here on the first run has the list of what the second one still has to pull.
        have hlist : bare u = .ofList xs := hmakeT.eq_ofList hxs
        rw [hlist] at hmakeS hmakeT
        obtain ⟨hpulled, hscript⟩ := hmakeS.run script
        rw [Stream.collect_ofList, Program.run] at hpulled
        have heager : ((runFrom registry ctx index s rendered (stage :: rest)).run script).result =
            ((runFrom registry ctx (index + 1) (.ofList xs) shown rest).run script).result := by
          simp only [runFrom, hfind, Program.run, hrun, Script.answer, ↓reduceIte,
            Program.monad_bind, Program.run_bind, hpulled, hscript, hsole]
        rw [heager]
        exact ih hblind.2 (Stream.stripsTo_ofList xs) hmakeT shown hrest

/-- Take a pipeline of commands that turn items into items and of probes, and let some of the probes
ask to halt. If for each of these the items that the stages up to it yield can be pulled and do not
come down to a request, then the run comes to the same as with no flag set: it fails with the same
failure, or has the same items, is presented alike, and halts at the same stage or not at all. -/
theorem halt_check_transparent (hbuiltin : builtinCommands limit ⊆ registry.commands)
    (hlazy : builtinCommands limit ⊆ lazy.commands) (ctx : Context)
    (hstages : ∀ stage ∈ pipeline,
      stage.name ∈ ["json", "head", "pick", "where"] ∨ stage.Probes registry lazy)
    (items : List Item) (script : Script)
    (hdrained : ∀ h stage, pipeline[h]? = some stage → stage.Asks registry →
      ∃ xs, ((yields lazy ctx (pipeline.take (h + 1)) (.ofList items)).run script).result =
        .ok xs ∧ Item.soleApproval? xs = none) :
    ((run registry ctx pipeline (.ofList items)).run script).result =
      ((run lazy ctx pipeline (.ofList items)).run script).result := by
  have hblind : ∀ stage ∈ pipeline, ∀ i, stage.Blind registry lazy ctx i := by
    intro stage hstage i
    rcases hstages stage hstage with hname | hprobe
    · exact Invocation.blind_of_mem hbuiltin hlazy hname ctx i
    · exact hprobe.blind ctx i
  have hsource := Stream.stripsTo_ofList items
  exact result_eq_lazy hblind hsource hsource false script hdrained

/-- Two probes ask to halt, one on two objects and one on a text of its own. The run cuts off the
second of the numbers that the text comes to, as it does when neither asks. -/
theorem checks_on_items_transparent :
    let text : Item := .value (.str "[7,8]")
    let registry (halt : Bool) : Registry :=
      ⟨.probe "tap" "" .tap halt false :: .probe "make" "" (.emit [text]) halt true ::
        builtinCommands none, by cases halt <;> decide⟩
    let ctx : Context := ⟨.tool, [], false⟩
    let pipeline : Pipeline := [⟨"tap", Args.empty⟩, ⟨"make", Args.empty⟩, ⟨"json", Args.empty⟩,
      ⟨"head", [("_", .many ["1"])]⟩]
    let items : List Item := [.value (.obj [("a", .int 1)]), .value (.obj [("a", .int 2)])]
    let ran (halt : Bool) :=
      ((run (registry halt) ctx pipeline (.ofList items)).run .empty).result
    (∀ k, k ≤ 4 → ∃ xs, ((yields (registry false) ctx (pipeline.take k) (.ofList items)).run
        .empty).result = .ok xs ∧ Item.soleApproval? xs = none) ∧
      ran false = .ok (.completed [.value (.int 7)] false) ∧ ran true = ran false := by
  intro text registry ctx pipeline items ran
  have hyields : ∀ k, k ≤ 4 →
      ∃ xs, ((yields (registry false) ctx (pipeline.take k) (.ofList items)).run
        .empty).result = .ok xs ∧ Item.soleApproval? xs = none := by
    intro k hk
    match k with
    | 0 => exact ⟨items, rfl, rfl⟩
    | 1 => exact ⟨items, rfl, rfl⟩
    | 2 => exact ⟨[text], rfl, rfl⟩
    | 3 => exact ⟨[.value (.int 7), .value (.int 8)], rfl, rfl⟩
    | 4 => exact ⟨[.value (.int 7)], rfl, rfl⟩
  have hbuiltin (halt : Bool) : builtinCommands none ⊆ (registry halt).commands :=
    fun c hc => List.mem_cons_of_mem _ (List.mem_cons_of_mem _ hc)
  have hstages : ∀ stage ∈ pipeline, stage.name ∈ ["json", "head", "pick", "where"] ∨
      stage.Probes (registry true) (registry false) := by
    have htap : Invocation.Probes (registry true) (registry false) ⟨"tap", Args.empty⟩ :=
      ⟨"", .tap, true, false, List.mem_cons_self .., List.mem_cons_self ..⟩
    have hmake : Invocation.Probes (registry true) (registry false) ⟨"make", Args.empty⟩ :=
      ⟨"", .emit [text], true, true, List.mem_cons_of_mem _ (List.mem_cons_self ..),
        List.mem_cons_of_mem _ (List.mem_cons_self ..)⟩
    simp [pipeline, htap, hmake]
  refine ⟨hyields, rfl, ?_⟩
  apply halt_check_transparent (hbuiltin true) (hbuiltin false) ctx hstages items .empty
  intro h stage hstage _
  exact hyields (h + 1) (List.getElem?_eq_some_iff.mp hstage).1

end Pipeline

end Sluice
