import Sluice.Command.Probe
import Sluice.Proofs.Resume.Reopening
import Sluice.Proofs.Stream.Laws
import Sluice.Run

/-!
What a run that returns can come to, over whatever commands. There are two places where it can halt,
behind a stage that asks for it and at the end, and commands may yield requests in either form and
ask for whatever they like. The outcome has one of two shapes all the same, and all that can be read
off it agrees: the flag, the position, the request and the continuation.
-/

namespace Sluice

namespace Outcome

variable {pipeline : Pipeline} {o : Outcome}

/-- The shapes of an outcome after so many stages: completed, with no request for its only item if
there were stages at all, or halted at one of them. -/
inductive EndsWithin (stages : Nat) : Outcome → Prop where
  | completed {items : List Item} {rendered : Bool}
      (h : 0 < stages → Item.soleApproval? items = none) :
      EndsWithin stages (.completed items rendered)
  | haltedOn {stage : Nat} {a : Approval} (h : stage < stages) :
      EndsWithin stages (.haltedOn stage a)

/-- An outcome of a run that halted at a stage. It holds the request in its own form and nothing
else, and the run can be continued at the stage after it. -/
structure HaltsOn (pipeline : Pipeline) (o : Outcome) (stage : Nat) (a : Approval) : Prop where
  asked : o.approval? = some a
  items : o.items = [.request a.items a.prompt]
  rendered : o.rendered = false
  haltedAt : o.haltedAt = some (stage : Int)
  within : stage < pipeline.length
  continues : ∃ c, Continuation.ofOutcome pipeline o = .ok c ∧ c.pipeline = pipeline ∧
    c.resumeAt = stage + 1 ∧ c.resumeAt ≤ pipeline.length ∧ c.items = a.items ∧ c.prompt = a.prompt

/-- An outcome whose parts agree with each other and with the pipeline that it is of. -/
structure Coherent (pipeline : Pipeline) (o : Outcome) : Prop where
  placed : o.halted = true ↔ ∃ stage, o.haltedAt = some stage
  asked : o.halted = true ↔ ∃ a, o.approval? = some a
  halts : o.halted = true → ∃ stage a, o.HaltsOn pipeline stage a
  ends : o.halted = false → Continuation.ofOutcome pipeline o = .error .notHalted
  unasked : o.halted = false → pipeline ≠ [] → ∀ x, o.items = [x] → x.approval? = none

theorem coherent_completed {items : List Item} (rendered : Bool)
    (h : 0 < pipeline.length → Item.soleApproval? items = none) :
    (completed items rendered).Coherent pipeline where
  placed := by simp [completed]
  asked := by simp [completed, approval?]
  halts := nofun
  ends _ := rfl
  unasked := by
    rintro - hne x rfl
    exact h (List.length_pos_iff.mpr hne)

theorem coherent_haltedOn {stage : Nat} (a : Approval) (h : stage < pipeline.length) :
    (haltedOn stage a).Coherent pipeline where
  placed := by simp [haltedOn]
  asked := by simp [haltedOn, approval?, Item.soleApproval?, Approval.toItem, Item.approval?]
  halts _ := by
    refine ⟨stage, a, rfl, rfl, rfl, rfl, h, _, Continuation.ofOutcome_haltedOn a h, ?_⟩
    exact ⟨rfl, rfl, h, rfl, rfl⟩
  ends := nofun
  unasked := nofun

theorem EndsWithin.coherent (h : o.EndsWithin pipeline.length) : o.Coherent pipeline := by
  cases h with
  | completed hnone => exact coherent_completed _ hnone
  | haltedOn hlt => exact coherent_haltedOn _ hlt

end Outcome

namespace Pipeline

variable {registry : Registry} {ctx : Context} {pipeline : Pipeline}

theorem finish_endsWithin (index : Nat) (source : Stream) (rendered : Bool) :
    (finish index source rendered).Ensures (Outcome.EndsWithin index) := by
  apply (Program.ensures_true source.collect).bind
  intro items _
  cases index with
  | zero => exact .completed (absurd · (Nat.lt_irrefl 0))
  | succ last =>
    cases hsole : Item.soleApproval? items with
    | none => exact .completed fun _ => hsole
    | some a => exact .haltedOn (Nat.lt_succ_self last)

/-- A stage either ends the run at its own halt check or leaves it to the stages behind it. -/
theorem runFrom_endsWithin (registry : Registry) (pipeline : Pipeline) (index : Nat)
    (source : Stream) (rendered : Bool) :
    (runFrom registry ctx index source rendered pipeline).Ensures
      (Outcome.EndsWithin (index + pipeline.length)) := by
  induction pipeline generalizing index source rendered with
  | nil => exact finish_endsWithin index source rendered
  | cons stage rest ih =>
    have hlength : index + (stage :: rest).length = index + 1 + rest.length := by
      rw [List.length_cons]
      omega
    rw [runFrom, hlength]
    split
    · trivial
    · intro _
      split
      · trivial
      · rename_i output _
        split
        · apply (Program.ensures_true output.stream.collect).bind
          intro items _
          split
          · exact .haltedOn (by omega)
          · exact ih (index + 1) _ _
        · exact ih (index + 1) _ _

/-- Whatever commands a pipeline names and whatever it is run on, a run that returns leaves an outcome
whose parts agree. It is halted exactly if a position is set and exactly if there is a request. Then
the request is all that it holds, nothing counts as presented, the position is that of a stage, and
the run can be continued behind that stage. Otherwise it cannot be continued, and unless there were
no stages its items do not come down to a request. -/
theorem run_coherent (registry : Registry) (ctx : Context) (pipeline : Pipeline) (source : Stream)
    (script : Script) {o : Outcome}
    (hrun : ((run registry ctx pipeline source).run script).result = .ok o) :
    o.Coherent pipeline := by
  have hends := (runFrom_endsWithin registry pipeline 0 source false).of_result hrun
  rw [Nat.zero_add] at hends
  exact hends.coherent

/-- A command of someone else asks to halt, claims to have presented its output, and yields a request
in the form of an object. -/
theorem foreign_halt_coherent :
    let asked : Item := .value (.obj [("type", .str "approval_request"),
      ("items", .arr [.int 1]), ("prompt", .str "sure?"), ("by", .null)])
    let registry : Registry := ⟨[.probe "ask" "" (.emit [asked]) true true], by simp⟩
    let pipeline : Pipeline := [⟨"ask", Args.empty⟩, ⟨"later", Args.empty⟩]
    let o : Outcome := .haltedOn 0 ⟨[.value (.int 1)], "sure?"⟩
    ((run registry ⟨.human, [], false⟩ pipeline .done).run .empty).result = .ok o ∧
      o.Coherent pipeline := by
  intro asked registry pipeline o
  have hrun : ((run registry ⟨.human, [], false⟩ pipeline .done).run .empty).result = .ok o := by
    rfl
  exact ⟨hrun, run_coherent registry _ pipeline .done .empty hrun⟩

end Pipeline

end Sluice
