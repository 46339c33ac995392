import Sluice.Proofs.Run.Demand
import Sluice.Proofs.Stream.Notes
import Sluice.Proofs.Stream.Passage

/-!
Runs of stages that hold nothing back, with taps at any places among them. The taps note an item with
all that it comes to before any of them sees the next item of the source. So the notes of a run are
those of its items one after the other, and a run on two lists of items put together has the notes
and the items of the run on the first and then those of the run on the second.
-/

namespace Sluice

namespace Invocation

/-- A stage that notes each item and hands it on, and asks for no halt. -/
def Taps (registry : Registry) (stage : Invocation) : Prop :=
  ∃ help rendered, Command.probe stage.name help .tap false rendered ∈ registry.commands

/-- A stage that does one or the other with each item, wherever it stands. -/
inductive PassesBy (registry : Registry) (stage : Invocation) : Passing → Prop where
  | tap (hstage : ¬ stage.Expands) (htap : stage.Taps registry) :
    PassesBy registry stage (.tap stage.name)
  | expand (hstage : stage.Expands) {f : Item → Except Failure (List Item)}
    (h : stage.ExpandsBy registry f) : PassesBy registry stage (.expand f)

instance (stage : Invocation) : Decidable stage.Expands :=
  inferInstanceAs (Decidable (stage.name ∈ ["json", "pick", "where"]))

/-- What such a stage makes of its source. -/
theorem PassesBy.run {registry : Registry} {stage : Invocation} {step : Passing}
    (h : stage.PassesBy registry step) :
    ∃ c rendered, registry.find? stage.name = some c ∧ ∀ index ctx source,
      c.run index ctx stage.args source = .ok ⟨step.apply index source, rendered, false⟩ := by
  cases h with
  | tap _ htap =>
    obtain ⟨help, rendered, hmem⟩ := htap
    exact ⟨_, rendered, Registry.find?_of_mem hmem, fun _ _ _ => rfl⟩
  | expand _ hexpand =>
    obtain ⟨c, hfind, hrun⟩ := hexpand
    exact ⟨c, false, hfind, hrun⟩

end Invocation

namespace Pipeline

def endings (index : Nat) : Pipeline → List Logged
  | [] => []
  | stage :: rest =>
    if stage.Expands then endings (index + 1) rest
    else ⟨index, .note s!"{stage.name}:end"⟩ :: endings (index + 1) rest

def Consumes (pipeline : Pipeline) (e : Logged) : Prop :=
  ∃ tap x, pipeline[e.stage]? = some tap ∧ ¬ tap.Expands ∧
    e.effect = .note s!"{tap.name}:consume {Probe.shown x}"

variable {limit : Option Binary64} {registry : Registry} {ctx : Context} {index : Nat}
  {pipeline : Pipeline} {steps : List Passing}

/-- A run that returns has opened all of its stages. -/
theorem exists_passesBy (hbuiltin : builtinCommands limit ⊆ registry.commands)
    (hstages : ∀ stage ∈ pipeline, stage.Expands ∨ stage.Taps registry) {source : Stream}
    {rendered : Bool} {script : Script} {o : Outcome}
    (hran : ((runFrom registry ctx index source rendered pipeline).run script).result = .ok o) :
    ∃ steps, List.Forall₂ (Invocation.PassesBy registry) pipeline steps := by
  induction pipeline generalizing index source rendered with
  | nil => exact ⟨[], .nil⟩
  | cons stage rest ih =>
    rw [List.forall_mem_cons] at hstages
    have hpasses : ∃ step, stage.PassesBy registry step := by
      by_cases hexpands : stage.Expands
      · rcases hexpands.expandsBy_or_refused hbuiltin with ⟨f, hf⟩ | ⟨c, e, hfind, hrun⟩
        · exact ⟨_, .expand hexpands hf⟩
        · simp only [runFrom, hfind, Program.run, hrun] at hran
          cases hran
      · exact ⟨_, .tap hexpands (hstages.1.resolve_left hexpands)⟩
    obtain ⟨step, hstep⟩ := hpasses
    obtain ⟨c, shown, hfind, hrun⟩ := hstep.run
    simp only [runFrom, hfind, Program.run, hrun, Bool.false_eq_true, ↓reduceIte] at hran
    obtain ⟨steps, hsteps⟩ := ih hstages.2 hran
    exact ⟨step :: steps, .cons hstep hsteps⟩

/-- A run announces such stages and then pulls its source through all of them. -/
theorem runFrom_passesBy (ctx : Context) (index : Nat)
    (h : List.Forall₂ (Invocation.PassesBy registry) pipeline steps) (rendered : Bool) :
    ∃ shown, ∀ source, runFrom registry ctx index source rendered pipeline =
      announcing index (finish (index + pipeline.length) (Passing.flow index steps source) shown)
        pipeline := by
  induction h generalizing index rendered with
  | nil => exact ⟨rendered, fun source => rfl⟩
  | @cons stage step rest steps hstage _ ih =>
    obtain ⟨c, presents, hfind, hrun⟩ := hstage.run
    obtain ⟨shown, hrest⟩ := ih (index + 1) presents
    refine ⟨shown, fun source => ?_⟩
    have hlength : index + (stage :: rest).length = index + 1 + rest.length := by
      rw [List.length_cons]
      omega
    simp only [runFrom, hfind, hrun, Bool.false_eq_true, ↓reduceIte, hrest, hlength]
    rfl

/-- The end of the source as a run notes it. -/
theorem ending_leaves (h : List.Forall₂ (Invocation.PassesBy registry) pipeline steps) :
    (Passing.ending index steps).collect.Leaves (endings index pipeline) [] := by
  intro script
  induction h generalizing index with
  | nil => rfl
  | cons hstage _ ih =>
    cases hstage with
    | tap hstage =>
      simp only [Passing.ending, Stream.collect, Program.run, Script.answer, ih, endings,
        if_neg hstage]
    | expand hstage => simp only [Passing.ending, ih, endings, if_pos hstage]

/-- A step that notes items is that of a tap. -/
theorem exists_tap (h : List.Forall₂ (Invocation.PassesBy registry) pipeline steps) {i : Nat}
    {name : String} (hi : steps[i]? = some (.tap name)) :
    ∃ tap, pipeline[i]? = some tap ∧ ¬ tap.Expands ∧ tap.name = name := by
  induction h generalizing i with
  | nil => cases hi
  | @cons stage step rest steps hstage _ ih =>
    cases i with
    | zero =>
      obtain rfl := Option.some.inj hi
      cases hstage with
      | tap hstage => exact ⟨stage, rfl, hstage, rfl⟩
    | succ i => exact ih hi

/-- The items of a source on their way, one behind the other. -/
def visits (steps : List Passing) (items : List Item) : Stream :=
  .concat (items.map (Passing.visit 0 steps))

theorem visits_append (front back : List Item) :
    visits steps (front ++ back) = (visits steps front).append (visits steps back) := by
  rw [visits, List.map_append, Stream.concat_append, visits, visits]

/-- On the way of items a run leaves notes about items and nothing else. -/
theorem visits_within (h : List.Forall₂ (Invocation.PassesBy registry) pipeline steps)
    (items : List Item) : (visits steps items).Within fun s e => Consumes pipeline ⟨s, e⟩ := by
  apply Stream.within_concat
  intro s hs
  obtain ⟨x, -, rfl⟩ := List.mem_map.mp hs
  apply Passing.within_visit
  intro i name y hi
  obtain ⟨tap, htap, hnot, rfl⟩ := exists_tap h hi
  rw [Nat.zero_add]
  exact ⟨tap, y, htap, hnot, rfl⟩

/-- Items whose way can be followed to the end leave the same notes on every script. -/
theorem visits_leave (h : List.Forall₂ (Invocation.PassesBy registry) pipeline steps)
    {items ys : List Item} {script : Script}
    (hran : ((visits steps items).collect.run script).result = .ok ys) :
    ∃ notes, (visits steps items).collect.Leaves notes ys ∧ ∀ e ∈ notes, Consumes pipeline e := by
  apply (visits_within h items).collect.leaves _ hran
  rintro stage e ⟨tap, x, -, -, hnote⟩
  exact ⟨_, hnote⟩

/-- A run of such stages announces them, follows the items, notes the end and looks at what the items
came to. -/
theorem run_visits (ctx : Context)
    (h : List.Forall₂ (Invocation.PassesBy registry) pipeline steps) :
    ∃ shown, ∀ items, run registry ctx pipeline (.ofList items) =
      announcing 0 ((visits steps items).collect.bind fun ys =>
        (Passing.ending 0 steps).collect.bind fun zs =>
          .pure (.reached pipeline.length (ys ++ zs) shown)) pipeline := by
  obtain ⟨shown, hrun⟩ := runFrom_passesBy ctx 0 h false
  refine ⟨shown, fun items => ?_⟩
  rw [run, hrun, Nat.zero_add, finish_reached, Passing.flow_ofList, Stream.collect_append]
  simp only [visits, Program.bind_assoc, Program.bind_pure]

theorem Leaves.announcing {α : Type} {p : Program α} {log : List Logged} {a : α}
    (hp : p.Leaves log a) (stages : Pipeline) :
    (announcing index p stages).Leaves (announcements index stages ++ log) a := by
  intro script
  rw [run_announcing, hp script]

/-- Let a run of stages that hold nothing back return, on two lists of items put together. Then the
runs on each of them return. What the taps have noted about items in the run on both is what they
have noted in the run on the first and then in the run on the second; nothing else is noted but the
ends, and these come last and in the order of the stages. Where none of the runs halts, the items are
those of the first run and then those of the second. -/
theorem notes_item_by_item (hbuiltin : builtinCommands limit ⊆ registry.commands) (ctx : Context)
    (hstages : ∀ stage ∈ pipeline, stage.Expands ∨ stage.Taps registry) (front back : List Item)
    (script : Script) {o : Outcome}
    (hran : ((run registry ctx pipeline (.ofList (front ++ back))).run script).result = .ok o) :
    let ran (items : List Item) := (run registry ctx pipeline (.ofList items)).run script
    let logOf (notes : List Logged) := announcements 0 pipeline ++ (notes ++ endings 0 pipeline)
    ∃ o₁ o₂ first second,
      ran front = ⟨.ok o₁, script, logOf first⟩ ∧ ran back = ⟨.ok o₂, script, logOf second⟩ ∧
      ran (front ++ back) = ⟨.ok o, script, logOf (first ++ second)⟩ ∧
      (∀ e ∈ first ++ second, Consumes pipeline e) ∧
      (o₁.halted = false → o₂.halted = false → o.halted = false →
        o.items = o₁.items ++ o₂.items) := by
  intro ran logOf
  obtain ⟨steps, hsteps⟩ := exists_passesBy hbuiltin hstages hran
  obtain ⟨shown, hrun⟩ := run_visits ctx hsteps
  have hleaves {items ys : List Item} {notes : List Logged}
      (h : (visits steps items).collect.Leaves notes ys) :
      (run registry ctx pipeline (.ofList items)).Leaves (logOf notes)
        (.reached pipeline.length ys shown) := by
    rw [hrun]
    apply Leaves.announcing
    apply h.bind
    intro script
    rw [Program.run_map, ending_leaves hsteps script]
    simp only [Except.map, List.append_nil]
  -- The items of both lists have been followed to the end, so those of each list have.
  have hfollowed := hran
  rw [hrun, run_announcing] at hfollowed
  obtain ⟨_, hboth, -⟩ := Program.result_bind_ok hfollowed
  rw [visits_append, Stream.collect_append] at hboth
  obtain ⟨xs, hfront, hrest⟩ := Program.result_bind_ok hboth
  obtain ⟨ys, hback, -⟩ := Program.result_bind_ok hrest
  obtain ⟨first, hfirst, hnotes⟩ := visits_leave hsteps hfront
  obtain ⟨second, hsecond, hnotes'⟩ := visits_leave hsteps hback
  have hall : (visits steps (front ++ back)).collect.Leaves (first ++ second) (xs ++ ys) := by
    rw [visits_append, Stream.collect_append]
    apply hfirst.bind
    intro script
    rw [Program.run_map, hsecond script]
    rfl
  obtain rfl := (hleaves hall).result_eq hran
  refine ⟨_, _, first, second, hleaves hfirst script, hleaves hsecond script, hleaves hall script,
    List.forall_mem_append.mpr ⟨hnotes, hnotes'⟩, ?_⟩
  intro hfirst hsecond hboth
  rw [Outcome.items_reached hfirst, Outcome.items_reached hsecond, Outcome.items_reached hboth]

/-- One tap stands before and behind `json`. It notes a text, then the two numbers that the text comes
to, and only then the next item of the source, whatever is dropped behind it. -/
theorem texts_noted_in_turn :
    let registry : Registry :=
      ⟨.probe "tap" "" .tap false false :: builtinCommands none, by decide⟩
    let pipeline : Pipeline := [⟨"tap", Args.empty⟩, ⟨"json", Args.empty⟩, ⟨"tap", Args.empty⟩,
      ⟨"where", [("_", .many ["a!=1"])]⟩]
    let number (name : String) (n : Int) : Item := .value (.obj [(name, .int n)])
    let text : Item := .value (.str "[7,8]")
    let front : List Item := [number "a" 2, text]
    let back : List Item := [number "a" 1, number "b" 1]
    let consumed (stage : Nat) (x : Item) : Logged :=
      ⟨stage, .note s!"tap:consume {Probe.shown x}"⟩
    let first : List Logged := [consumed 0 (number "a" 2), consumed 2 (number "a" 2),
      consumed 0 text, consumed 2 (.value (.int 7)), consumed 2 (.value (.int 8))]
    let second : List Logged := [consumed 0 (number "a" 1), consumed 2 (number "a" 1),
      consumed 0 (number "b" 1), consumed 2 (number "b" 1)]
    let ran (items : List Item) :=
      (run registry ⟨.tool, [], false⟩ pipeline (.ofList items)).run .empty
    let logOf (notes : List Logged) := announcements 0 pipeline ++ (notes ++ endings 0 pipeline)
    (ran (front ++ back)).result = .ok (.completed [number "a" 2, number "b" 1] false) ∧
      (ran front).log = logOf first ∧ (ran back).log = logOf second ∧
      (ran (front ++ back)).log = logOf (first ++ second) := by
  intro registry pipeline number text front back consumed first second ran logOf
  have hbuiltin : builtinCommands none ⊆ registry.commands := List.subset_cons_self _ _
  have htap : Invocation.Taps registry ⟨"tap", Args.empty⟩ :=
    ⟨"", false, List.mem_cons_self ..⟩
  have hstages : ∀ stage ∈ pipeline, stage.Expands ∨ stage.Taps registry := by
    simp [pipeline, htap, Invocation.Expands]
  have hran : (ran (front ++ back)).result =
      .ok (.completed [number "a" 2, number "b" 1] false) := by rfl
  have hfirst : (ran front).log = logOf first := by rfl
  have hsecond : (ran back).log = logOf second := by rfl
  have hnotes {notes notes' : List Logged} (h : logOf notes = logOf notes') : notes = notes' :=
    List.append_cancel_right (List.append_cancel_left h)
  obtain ⟨_, _, notes, notes', hfront, hback, hboth, -⟩ :=
    notes_item_by_item hbuiltin _ hstages front back .empty hran
  obtain rfl := hnotes ((congrArg Ran.log hfront).symm.trans hfirst)
  obtain rfl := hnotes ((congrArg Ran.log hback).symm.trans hsecond)
  exact ⟨hran, hfirst, hsecond, congrArg Ran.log hboth⟩

end Pipeline

end Sluice
