import Sluice.Proofs.Approval.Halt
import Sluice.Proofs.Run.Arrival
import Sluice.Proofs.Run.Opening
import Sluice.Proofs.Run.Renumbering

/-!
Pipelines put end to end. In one run of both the stages of the second pull the stages of the first,
and may stop early or wait at a gate; in two runs all items of the first are there before the second
starts. For a tool and a first pipeline that only turns items into items the two come to the same:
its stages have nothing to do but to yield, so once they are opened their stream is the list of the
items that they come to, whoever pulls it and however far.
-/

namespace Sluice

/-- A stage that turns items into items, and for a tool does nothing else. -/
def Invocation.Transforms (stage : Invocation) : Prop :=
  stage.name ∈ ["json", "head", "pick", "where", "table"]

/-- A stream without effects that can be pulled to its end is the list of its items. -/
theorem Stream.eq_ofList {s : Stream} (hquiet : s.Within fun _ _ => False) {script : Script}
    {xs : List Item} (h : (s.collect.run script).result = .ok xs) : s = .ofList xs := by
  induction s generalizing xs with
  | done =>
    cases h
    rfl
  | fail e => cases h
  | yield x rest ih =>
    obtain ⟨ys, hrest, hyield⟩ := Program.result_bind_ok h
    cases hyield
    rw [ih hquiet hrest]
    rfl
  | perform stage e next => exact hquiet.1.elim

variable {limit : Option Binary64} {ctx : Context} {index : Nat} {source : Stream}
  {ok : Nat → Effect → Prop}

/-- For a tool, such a stage adds no effect to those of its source. -/
theorem Plan.within_of_transforms (hmode : ctx.mode = .tool) {stage : Invocation}
    (hstage : stage.Transforms) {r : Reader} {p : Plan}
    (hr : builtin? limit stage.name = some r) (hp : r index ctx stage.args = .ok p)
    (hsource : source.Within ok) : (p.action.apply source).Within ok := by
  obtain ⟨name, args⟩ := stage
  cases decided hr hp with
  | json => exact hsource.expand _
  | head => exact hsource.take _
  | pick => exact hsource.expand _
  | filter => exact hsource.expand _
  | pass => exact hsource
  | print hhuman =>
    rw [hmode] at hhuman
    cases hhuman
  | _ => simp [Invocation.Transforms] at hstage

namespace Pipeline

/-- The stream of such stages has the effects of its source. -/
theorem opened_transforms (hmode : ctx.mode = .tool) {stages : Pipeline}
    (hstages : ∀ stage ∈ stages, stage.Transforms) (hsource : source.Within ok) :
    (opened (Registry.builtin limit) ctx index source stages).Ensures (·.Within ok) := by
  induction stages generalizing index source with
  | nil => exact hsource
  | cons stage rest ih =>
    rw [List.forall_mem_cons] at hstages
    rw [opened_builtin_cons]
    split
    · trivial
    · rename_i r hr
      intro _
      split
      · trivial
      · rename_i p hp
        apply ih hstages.2
        exact Plan.within_of_transforms hmode hstages.1 hr hp hsource

/-- Stages that can be opened are announced on the way to their stream, and that is all. -/
theorem opened_eq_announcing {stages : Pipeline} {script : Script} {stream : Stream}
    (h : ((opened (Registry.builtin limit) ctx index source stages).run script).result =
      .ok stream) :
    opened (Registry.builtin limit) ctx index source stages =
      announcing index (.pure stream) stages := by
  induction stages generalizing index source with
  | nil =>
    cases h
    rfl
  | cons stage rest ih =>
    rw [opened_builtin_cons] at h ⊢
    cases hr : Plan.builtin? limit stage.name with
    | none =>
      rw [hr] at h
      cases h
    | some r =>
      rw [hr] at h
      cases hp : r index ctx stage.args with
      | error f =>
        simp only [Program.run, hp] at h
        cases h
      | ok p =>
        simp only [Program.run, Script.answer, hp] at h
        simp only [hp, ih h]
        rfl

theorem announcing_bind {α β : Type} (p : Program α) (f : α → Program β) (stages : Pipeline) :
    (announcing index p stages).bind f = announcing index (p.bind f) stages := by
  induction stages generalizing index with
  | nil => rfl
  | cons stage rest ih => simp only [announcing, Program.bind_perform, ih]

/-- Stages that can be opened, then what is done with their stream. -/
theorem opened_bind {α : Type} {stages : Pipeline} {script : Script} {stream : Stream}
    (h : ((opened (Registry.builtin limit) ctx index source stages).run script).result =
      .ok stream) (f : Stream → Program α) :
    (opened (Registry.builtin limit) ctx index source stages).bind f =
      announcing index (f stream) stages := by
  rw [opened_eq_announcing h, announcing_bind, Program.bind_pure]

/-- A run that ends without a halt has pulled its last stream to the end, and if it had stages then
what came is no request. -/
theorem of_finish_completed {rendered : Bool} {script : Script} {o : Outcome}
    (hran : ((finish index source rendered).run script).result = .ok o)
    (hended : o.halted = false) :
    (source.collect.run script).result = .ok o.items ∧
      (index ≠ 0 → Item.soleApproval? o.items = none) := by
  obtain ⟨items, hitems, hend⟩ := Program.result_bind_ok hran
  cases index with
  | zero =>
    cases hend
    exact ⟨hitems, absurd rfl⟩
  | succ last =>
    cases hsole : Item.soleApproval? items with
    | none =>
      simp only [hsole] at hend
      cases hend
      exact ⟨hitems, fun _ => hsole⟩
    | some a =>
      simp only [hsole] at hend
      cases hend
      cases hended

/-- The end of a run on a list of items that is not to be taken for a request. -/
theorem finish_ofList {items : List Item} (h : index ≠ 0 → Item.soleApproval? items = none)
    (rendered : Bool) :
    finish index (.ofList items) rendered = .pure (.completed items rendered) := by
  rw [finish_reached, Stream.collect_ofList, Program.bind_pure]
  cases index with
  | zero => rfl
  | succ last => rw [Outcome.reached_of_none (h (Nat.succ_ne_zero last))]

/-- Stages behind others run on a list of items as from the start, under later indices. Where there
are none the run ends as those before do, which is then not to be on a request. -/
theorem runFrom_behind (n : Nat) {items : List Item}
    (hitems : n ≠ 0 → Item.soleApproval? items = none) (pipeline : Pipeline) :
    runFrom (Registry.builtin limit) ctx n (.ofList items) false pipeline =
      ((run (Registry.builtin limit) ctx pipeline (.ofList items)).shift n).bind
        fun o => .pure (o.shift n) := by
  cases pipeline with
  | nil =>
    have hzero : 0 ≠ 0 → Item.soleApproval? items = none := absurd rfl
    rw [run, runFrom, runFrom, finish_ofList hitems, finish_ofList hzero, Program.shift_pure,
      Program.bind_pure, Outcome.shift_completed]
  | cons stage rest =>
    have hstages : 0 < 0 + (stage :: rest).length := Nat.lt_add_of_pos_right (Nat.succ_pos _)
    have hrun := runFrom_shift limit ctx n hstages (.ofList items) false
    rwa [Stream.shift_ofList, Nat.zero_add] at hrun

/-- A run of two pipelines for a tool, of which the first only turns items into items and by itself
ends on some: the stages of the first are announced, and the second runs on these items. -/
theorem run_append (hmode : ctx.mode = .tool) {front : Pipeline}
    (hfront : ∀ stage ∈ front, stage.Transforms) {items : List Item} {script : Script}
    {o : Outcome}
    (hran : ((run (Registry.builtin limit) ctx front (.ofList items)).run script).result = .ok o)
    (hended : o.halted = false) (back : Pipeline) :
    run (Registry.builtin limit) ctx (front ++ back) (.ofList items) =
      announcing 0 (((run (Registry.builtin limit) ctx back (.ofList o.items)).shift
        front.length).bind fun o => .pure (o.shift front.length)) front := by
  have hgates : ∀ stage ∈ front, stage.name ≠ "approve" := by
    intro stage hstage hname
    have htransforms := hfront stage hstage
    simp [Invocation.Transforms, hname] at htransforms
  have hopen (back : Pipeline) :
      run (Registry.builtin limit) ctx (front ++ back) (.ofList items) =
        (opened (Registry.builtin limit) ctx 0 (.ofList items) front).bind fun stream =>
          runFrom (Registry.builtin limit) ctx front.length stream false back := by
    rw [run, runFrom_append hmode hgates, Nat.zero_add, Bool.false_and]
  -- By itself the first pipeline is the case with nothing behind it, which pulls its whole stream.
  have hfinish := hopen []
  rw [List.append_nil] at hfinish
  rw [hfinish] at hran
  obtain ⟨stream, hstream, hend⟩ := Program.result_bind_ok hran
  obtain ⟨hcollect, hitems⟩ := of_finish_completed hend hended
  have hquiet : stream.Within fun _ _ => False :=
    (opened_transforms hmode hfront (Stream.within_ofList items)).of_result hstream
  obtain rfl := Stream.eq_ofList hquiet hcollect
  rw [hopen, opened_bind hstream, runFrom_behind _ hitems]

/-- For a tool, let a pipeline of stages that only turn items into items come to its end by itself.
Then a run of it with any other pipeline behind it is a run of that other pipeline on the items that
it ends on: with the same script it fails as that one does, or has the same items or the same request,
and leaves the same of the script. Its log is that of the other run behind the announcements of the
first stages, and all indices, that of a halt too, count these stages in. -/
theorem runs_compose (limit : Option Binary64) (ctx : Context) (hmode : ctx.mode = .tool)
    {front : Pipeline} (hfront : ∀ stage ∈ front, stage.Transforms) {items : List Item}
    {before : Script} {o : Outcome}
    (hran : ((run (Registry.builtin limit) ctx front (.ofList items)).run before).result = .ok o)
    (hended : o.halted = false) (back : Pipeline) (script : Script) :
    let later := (run (Registry.builtin limit) ctx back (.ofList o.items)).run script
    (run (Registry.builtin limit) ctx (front ++ back) (.ofList items)).run script =
      ⟨later.result.map (Outcome.shift front.length), later.script,
        announcements 0 front ++ later.log.map (Logged.shift front.length)⟩ := by
  intro later
  rw [run_append hmode hfront hran hended back, run_announcing, Program.run_map, Program.run_shift]

/-- The first pipeline ends on one item, before the text that is no JSON. Behind it a subprocess runs
and its output waits for approval, at the fourth stage of all. -/
theorem composed_run_halts_behind_front :
    let ctx : Context := ⟨.tool, [], false⟩
    let front : Pipeline := [⟨"json", Args.empty⟩, ⟨"head", [("_", .many ["1"])]⟩]
    let back : Pipeline := [⟨"exec", [("_", .many ["date"])]⟩, ⟨"approve", Args.empty⟩]
    let items : List Item := [.value (.str "[1,2]"), .value (.str "no JSON")]
    let script : Script := ⟨[.finished [110, 111, 111, 110, 10] [] 0], [], []⟩
    let ran (p : Pipeline) (xs : List Item) (s : Script) :=
      ((run (Registry.builtin none) ctx p (.ofList xs)).run s).result
    ran front items .empty = .ok (.completed [.value (.int 1)] false) ∧
      ran (front ++ back) items script =
        (ran back [.value (.int 1)] script).map (Outcome.shift 2) ∧
      ran (front ++ back) items script = .ok (.haltedOn 3 ⟨[.value (.str "noon")], "Approve?"⟩) := by
  intro ctx front back items script ran
  have hfront : ∀ stage ∈ front, stage.Transforms := by
    simp [front, Invocation.Transforms]
  have hran : ran front items .empty = .ok (.completed [.value (.int 1)] false) := by rfl
  have hcompose := runs_compose none ctx rfl hfront hran rfl back script
  have hresult : ran (front ++ back) items script =
      (ran back [.value (.int 1)] script).map (Outcome.shift 2) := congrArg Ran.result hcompose
  have hback : ran back [.value (.int 1)] script =
      .ok (.haltedOn 1 ⟨[.value (.str "noon")], "Approve?"⟩) := by rfl
  refine ⟨hran, hresult, ?_⟩
  rw [hresult, hback]
  rfl

end Pipeline

end Sluice
