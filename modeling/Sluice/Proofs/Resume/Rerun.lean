import Sluice.Proofs.Resume.Commands
import Sluice.Proofs.Run.Outcome

/-!
Resuming against going on. The stages after a halt see the approved items as they come out of the
token, with the members of objects in the order of their keys. Where no `where` among these stages
can tell, the resumed run and the run of these stages on the approved items themselves leave the same
behind.
-/

namespace Sluice

theorem Outcome.completed_agree {xs ys : List Item} (h : Items.Agree xs ys) (rendered : Bool) :
    Outcome.Agree (.completed xs rendered) (.completed ys rendered) :=
  ⟨h, rfl, rfl, rfl⟩

theorem Outcome.haltedOn_agree (stage : Nat) {a b : Approval} (h : a.Agree b) :
    Outcome.Agree (.haltedOn stage a) (.haltedOn stage b) := by
  refine ⟨.cons ?_ .nil, rfl, rfl, rfl⟩
  rw [Approval.toItem, Approval.toItem, ← h.prompt]
  exact .request h.items a.prompt

theorem Outcome.haltedOn_inj {stage stage' : Nat} {a a' : Approval}
    (h : haltedOn stage a = haltedOn stage' a') : stage = stage' :=
  Int.ofNat.inj (Option.some.inj (congrArg haltedAt h))

namespace Pipeline

variable {limit : Option Binary64} {ctx : Context}

theorem finish_agree (index : Nat) {s t : Stream} (h : s.Agree t) (rendered : Bool) :
    (finish index s rendered).Agree Outcome.Agree (finish index t rendered) := by
  apply h.collect.bind
  intro xs ys hxs
  have hsole := Item.Agree.soleApproval? hxs
  generalize Item.soleApproval? xs = a at hsole
  generalize Item.soleApproval? ys = b at hsole
  cases index with
  | zero => exact .pure (Outcome.completed_agree hxs rendered)
  | succ last =>
    cases hsole with
    | none => exact .pure (Outcome.completed_agree hxs rendered)
    | some hab => exact .pure (Outcome.haltedOn_agree last hab)

/-- For a tool, the same pipeline on sources that agree gives runs that agree. -/
theorem runFrom_agree (hmode : ctx.mode = .tool) {p q : Pipeline} (hpq : p.Same q)
    (hargs : ∀ stage ∈ q, stage.args.Lawful) (hfree : ∀ stage ∈ q, stage.OrderFree) (index : Nat)
    {s t : Stream} (h : s.Agree t) (rendered : Bool) :
    (runFrom (Registry.builtin limit) ctx index s rendered p).Agree Outcome.Agree
      (runFrom (Registry.builtin limit) ctx index t rendered q) := by
  induction hpq generalizing index s t rendered with
  | nil => exact finish_agree index h rendered
  | @cons stage stage' p q hstage _ ih =>
    rw [List.forall_mem_cons] at hargs hfree
    rw [runFrom_builtin_cons, runFrom_builtin_cons, hstage.1]
    cases hr : Plan.builtin? limit stage'.name with
    | none => exact .fail _
    | some r =>
      refine .start index hstage fun _ => ?_
      rw [← Plan.perm hr hstage.2.symm hargs.1]
      cases hp : r index ctx stage'.args with
      | error f => exact .fail f
      | ok plan =>
        have houtput := Plan.agree hmode hfree.1 hr hp h
        simp only
        split
        · apply houtput.collect.bind
          intro xs ys hxs
          have hsole := Item.Agree.soleApproval? hxs
          generalize Item.soleApproval? xs = a at hsole
          generalize Item.soleApproval? ys = b at hsole
          cases hsole with
          | none => exact ih hargs.2 hfree.2 (index + 1) (Stream.agree_ofList hxs) plan.rendered
          | some hab => exact .pure (Outcome.haltedOn_agree index hab)
        · exact ih hargs.2 hfree.2 (index + 1) houtput plan.rendered

/-- A run that halts does so on a request, at a stage of its pipeline. -/
theorem runFrom_haltedOn (registry : Registry) (pipeline : Pipeline) (index : Nat)
    (source : Stream) (rendered : Bool) :
    (runFrom registry ctx index source rendered pipeline).Ensures fun o =>
      o.halted = true → ∃ stage a, o = .haltedOn stage a ∧ stage < index + pipeline.length := by
  apply (runFrom_endsWithin registry pipeline index source rendered).mono
  intro o ho hhalted
  cases ho with
  | completed => cases hhalted
  | haltedOn hlt => exact ⟨_, _, rfl, hlt⟩

/-- A run that halts does so at a stage of its pipeline. -/
theorem runFrom_halts_within (registry : Registry) (pipeline : Pipeline) (index : Nat)
    (source : Stream) (rendered : Bool) :
    (runFrom registry ctx index source rendered pipeline).Ensures fun o =>
      ∀ stage a, o = .haltedOn stage a → stage < index + pipeline.length := by
  apply (runFrom_haltedOn registry pipeline index source rendered).mono
  intro o ho stage a heq
  obtain ⟨stage', a', heq', hlt⟩ := ho (by rw [heq]; rfl)
  rwa [Outcome.haltedOn_inj (heq.symm.trans heq')]

/-- The run that goes on after the halt of a pipeline, directly with the items that were asked
about. -/
def direct (limit : Option Binary64) (ctx : Context) (pipeline : Pipeline) (stage : Nat)
    (a : Approval) (script : Script) : Ran Outcome :=
  (run (Registry.builtin limit) ctx (pipeline.drop (stage + 1)) (.ofList a.items)).run script

def resumed (limit : Option Binary64) (ctx : Context) (c : Continuation) (script : Script) :
    Ran Outcome :=
  (run (Registry.builtin limit) ctx c.remaining (.ofList c.items)).run script

/-- The token of a halted run is issued and accepted, and resuming it gives what going on directly
gives, effects and all. -/
def ResumesAlike (limit : Option Binary64) (key : Option (List UInt8)) (pipeline : Pipeline)
    (stage : Nat) (a : Approval) : Prop :=
  ∃ c, Token.reopen key pipeline (.haltedOn stage a) = .ok c ∧
    ∀ ctx : Context, ctx.mode = .tool → ∀ script,
      Ran.Agree Outcome.Agree (resumed limit ctx c script)
        (direct limit ctx pipeline stage a script)

/-- The token of a halted run is issued and accepted, but resuming it never gives what going on
directly gives. -/
def ResumesApart (limit : Option Binary64) (key : Option (List UInt8)) (pipeline : Pipeline)
    (stage : Nat) (a : Approval) : Prop :=
  ∃ c, Token.reopen key pipeline (.haltedOn stage a) = .ok c ∧
    ∀ ctx : Context, ctx.mode = .tool → ∀ script,
      ¬ Agreed Outcome.Agree (resumed limit ctx c script).result
        (direct limit ctx pipeline stage a script).result

theorem resumesAlike_of_orderFree (key : Option (List UInt8)) {pipeline : Pipeline}
    (hlawful : pipeline.Lawful) {stage : Nat} (hstage : stage + 1 ≤ pipeline.length)
    {values : List Json} (hvalues : ∀ v ∈ values, v.wellFormed = true ∧ v.allFinite = true)
    (hfree : ∀ s ∈ pipeline.drop (stage + 1), s.OrderFree) {prompt : String}
    (hcarried : Continuation.Carried ⟨pipeline, stage + 1, values.map .value, prompt, hstage⟩) :
    ResumesAlike limit key pipeline stage ⟨values.map .value, prompt⟩ := by
  have hitems : ∀ x ∈ values.map Item.value, x.WellFormed := by
    rw [List.forall_mem_map]
    exact fun v hv => (hvalues v hv).1
  obtain ⟨c, hreopen, hrest, hkept⟩ :=
    Token.reopen_haltedOn key (a := ⟨values.map .value, prompt⟩) hlawful hstage hitems hcarried
  refine ⟨c, hreopen, fun ctx hmode script => Program.Agree.run ?_ script⟩
  refine runFrom_agree hmode hrest (hlawful.drop _).args hfree 0 (Stream.agree_ofList ?_) false
  rw [hkept, Items.Agree, List.forall₂_map_left_iff, List.forall₂_same, List.forall_mem_map]
  intro v hv
  obtain ⟨hwell, hfinite⟩ := hvalues v hv
  rw [Item.stored, Item.toJson, Json.finite_of_allFinite hfinite]
  exact .value ⟨(Json.same_sorted hwell).symm, (Json.allFinite_sorted v).trans hfinite⟩

end Pipeline

end Sluice
