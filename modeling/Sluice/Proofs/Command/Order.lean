import Sluice.Proofs.Command.Plan
import Sluice.Proofs.Stream.Order

/-!
What a run of the commands that come with the program does outside itself, and when. A stage has at
most one effect that is seen outside, and has it after it has pulled its source to the end; so the
effects of a run are in the order of the stages, whichever stage pulls which. A failed one is the
last: its stage fails, and the stages behind it only pass the failure on.
-/

namespace Sluice

/-- An exchange that fails, and what the run then fails with: a subprocess that takes too long, ends
badly or does not write the JSON that its stage promises, a request without an answer, with a bad one
or with one that is no JSON, and a question that is denied. -/
inductive Exchange.FailsWith (limit : Option Binary64) (pipeline : Pipeline) :
    Exchange → Failure → Prop where
  | timedOut {stage : Nat} {command : String} {env : Option Environment} :
      FailsWith limit pipeline ⟨stage, .spawn command env, ProcessResult.timedOut⟩
        (.command (.timedOut limit command))
  | exited {stage : Nat} {command : String} {env : Option Environment} {stdout stderr : List UInt8}
      {exit : Int} {shown : List Char} (hexit : exit ≠ 0)
      (hshown : shown = (Text.trim (Utf8.decodeLossy stderr)).take Exec.previewLength) :
      FailsWith limit pipeline
        ⟨stage, .spawn command env, ProcessResult.finished stdout stderr exit⟩
        (.command (.exited exit (if shown.isEmpty then command else String.ofList shown)))
  | outputNotJson {stage : Nat} {command : String} {env : Option Environment}
      {stdout stderr : List UInt8} {promised : Invocation} {e : Json.ReadError}
      (hstage : pipeline[stage]? = some promised)
      (hpromised : (Exec.commandWords promised.args).1 = true)
      (houtput : Text.trim (Utf8.decodeLossy stdout) ≠ [])
      (hread : Json.read (Text.trim (Utf8.decodeLossy stdout)) = .error e) :
      FailsWith limit pipeline ⟨stage, .spawn command env, ProcessResult.finished stdout stderr 0⟩
        (e.toFailure fun fault line => .command (.outputNotJson fault line))
  | unreachable {stage : Nat} {request : Post} {detail : String} :
      FailsWith limit pipeline ⟨stage, .post request, Reply.unreachable detail⟩
        (.command (.unreachable detail))
  | errorStatus {stage : Nat} {request : Post} {status : Nat} {body : List UInt8}
      (hstatus : 400 ≤ status ∧ status ≤ 599) :
      FailsWith limit pipeline ⟨stage, .post request, Reply.response status body⟩
        (.command (.errorStatus status
          (String.ofList ((Utf8.decodeLossy body).take Invoke.previewLength))))
  | replyNotJson {stage : Nat} {request : Post} {status : Nat} {body : List UInt8}
      {e : Json.ReadError} (hstatus : ¬ (400 ≤ status ∧ status ≤ 599))
      (hbody : Text.isBlankText (Utf8.decodeLossy body) = false)
      (hread : Json.read (Utf8.decodeLossy body) = .error e) :
      FailsWith limit pipeline ⟨stage, .post request, Reply.response status body⟩
        (e.toFailure fun _ _ => .command .replyNotJson)
  | denied {stage : Nat} {question : String} :
      FailsWith limit pipeline ⟨stage, .confirm question, false⟩ (.command .notApproved)

namespace Exchange.FailsWith

variable {limit : Option Binary64} {pipeline : Pipeline} {stage : Nat} {f : Failure}

/-- A stage of `exec` has no items of a subprocess that failed. -/
theorem items_spawn {invocation : Invocation} (hstage : pipeline[stage]? = some invocation)
    {command : String} {env : Option Environment} {result : ProcessResult}
    (h : FailsWith limit pipeline ⟨stage, .spawn command env, result⟩ f) :
    Exec.items limit command (Exec.commandWords invocation.args).1 result = .error f := by
  cases h with
  | timedOut => rfl
  | exited hexit hshown =>
    rw [Exec.items, if_pos hexit, ← hshown]
    rfl
  | @outputNotJson _ _ _ _ _ promised e hpromise hpromised houtput hread =>
    obtain rfl : promised = invocation := Option.some.inj (hpromise.symm.trans hstage)
    rw [Exec.items, if_neg (by simp), if_pos hpromised, Exec.jsonItems]
    simp only [List.isEmpty_eq_false_iff.mpr houtput, hread, Bool.false_eq_true, ↓reduceIte]

/-- A stage of `invoke` has no items of a request that failed. -/
theorem items_post {request : Post} {reply : Reply}
    (h : FailsWith limit pipeline ⟨stage, .post request, reply⟩ f) :
    Invoke.items reply = .error f := by
  cases h with
  | unreachable => rfl
  | errorStatus hstatus =>
    rw [Invoke.items]
    exact if_pos hstatus
  | replyNotJson hstatus hbody hread =>
    rw [Invoke.items]
    simp only [if_neg hstatus, Invoke.bodyItems, hbody, hread, Bool.false_eq_true, ↓reduceIte]

end Exchange.FailsWith

def Action.Ordered (fails : Exchange → Failure → Prop) (stage : Nat) : Action → Prop
  | .gather k => ∀ items, (k items).Ordered fails stage (stage + 1)
  | _ => True

/-- An action of a stage acts after its source. -/
theorem Action.Ordered.apply {fails : Exchange → Failure → Prop} {lo stage : Nat} {action : Action}
    (h : action.Ordered fails stage) (hlo : lo ≤ stage) {source : Stream}
    (hsource : source.Ordered fails lo stage) :
    (action.apply source).Ordered fails lo (stage + 1) := by
  have hle : stage ≤ stage + 1 := Nat.le_succ stage
  cases action with
  | pass => exact hsource.mono hle
  | expand f => exact (hsource.expand f).mono hle
  | take n => exact (hsource.take n).mono hle
  | gather k => exact Stream.ordered_ofProgram (hsource.collect.bind hlo hle h)

variable {limit : Option Binary64} {ctx : Context} {pipeline : Pipeline}

theorem Plan.ordered {r : Reader} {stage : Nat} {invocation : Invocation} {p : Plan}
    (hstage : pipeline[stage]? = some invocation) (hr : builtin? limit invocation.name = some r)
    (hp : r stage ctx invocation.args = .ok p) :
    p.action.Ordered (Exchange.FailsWith limit pipeline) stage := by
  obtain ⟨name, args⟩ := invocation
  have hlt : stage < stage + 1 := Nat.lt_succ_self stage
  cases decided hr hp with
  | @exec asJson words hwords _ =>
    intro items
    refine Program.ordered_effect (Nat.le_refl stage) hlt fun result f hf => ?_
    have hitems := hf.items_spawn hstage
    rwa [hwords] at hitems
  | print =>
    intro items
    refine (Program.ordered_ofExcept _).bind (Nat.le_refl stage) (Nat.le_succ stage) fun text => ?_
    exact ⟨fun _ => ⟨Nat.le_refl stage, hlt⟩, fun _ => ⟨trivial, fun f hf => nomatch hf⟩⟩
  | ask =>
    intro items
    rw [ask]
    split
    · refine ⟨fun _ => ⟨Nat.le_refl stage, hlt⟩, fun (agreed : Bool) => ⟨?_, fun f hf => ?_⟩⟩
      · cases agreed <;> trivial
      · cases hf
        rfl
    · trivial
  | invoke =>
    intro items
    refine (Program.ordered_ofExcept _).bind (Nat.le_refl stage) (Nat.le_succ stage) fun request => ?_
    exact Program.ordered_effect (Nat.le_refl stage) hlt fun reply f hf => hf.items_post
  | request => exact fun _ => trivial
  | _ => trivial

namespace Pipeline

theorem finish_ordered {fails : Exchange → Failure → Prop} {lo index : Nat} (hlo : lo ≤ index)
    {source : Stream} (h : source.Ordered fails lo index) (rendered : Bool) :
    (finish index source rendered).Ordered fails lo index := by
  apply h.collect.bind hlo (Nat.le_refl index)
  intro items
  split
  · trivial
  · trivial

/-- A run from an index on acts at the stages of its pipeline in order, after what its source does. -/
theorem runFrom_ordered {rest : Pipeline} {lo index : Nat} (hlo : lo ≤ index)
    (hrest : pipeline.drop index = rest) {source : Stream}
    (hsource : source.Ordered (Exchange.FailsWith limit pipeline) lo index) (rendered : Bool) :
    (runFrom (Registry.builtin limit) ctx index source rendered rest).Ordered
      (Exchange.FailsWith limit pipeline) lo (index + rest.length) := by
  induction rest generalizing lo index source rendered with
  | nil => exact finish_ordered hlo hsource rendered
  | cons stage rest ih =>
    have hstage : pipeline[index]? = some stage := by
      rw [← Nat.add_zero index, ← List.getElem?_drop, hrest]
      rfl
    have hlater : pipeline.drop (index + 1) = rest := by
      rw [← List.drop_drop, hrest]
      rfl
    have hlength : index + (stage :: rest).length = index + 1 + rest.length := by
      rw [List.length_cons]
      omega
    rw [runFrom_builtin_cons, hlength]
    cases hr : Plan.builtin? limit stage.name with
    | none => trivial
    | some r =>
      refine ⟨fun hexternal => absurd hexternal nofun, fun _ => ⟨?_, fun f hf => nomatch hf⟩⟩
      cases hp : r index ctx stage.args with
      | error f => trivial
      | ok p =>
        have houtput := (Plan.ordered hstage hr hp).apply hlo hsource
        have hle : lo ≤ index + 1 := Nat.le_succ_of_le hlo
        simp only
        split
        · -- The items are all there before the stages behind the halt check are looked at.
          refine houtput.collect.bind hle (Nat.le_add_right _ _) fun items => ?_
          cases Item.soleApproval? items with
          | none => exact ih (Nat.le_refl _) hlater (Stream.ordered_ofList items) p.rendered
          | some a => trivial
        · exact ih hle hlater houtput p.rendered

/-- In a run of the commands that come with the program, for a person or for a tool, the effects that
are seen outside belong to ever later stages of the pipeline, so that no stage has two; and where one
of them fails nothing else happens, and the run fails with what that stage makes of it. -/
theorem effects_ascend_and_stop (limit : Option Binary64) (ctx : Context) (pipeline : Pipeline)
    (items : List Item) (script : Script) :
    let ran := run (Registry.builtin limit) ctx pipeline (.ofList items)
    ((ran.exchanges script).filter Exchange.isExternal).Pairwise (fun x y => x.stage < y.stage) ∧
      (∀ x ∈ ran.exchanges script, x.isExternal = true → x.stage < pipeline.length) ∧
      ∀ x ∈ ran.exchanges script, ∀ f, x.FailsWith limit pipeline f →
        (ran.run script).result = .error f ∧ ∃ before, ran.exchanges script = before ++ [x] := by
  intro ran
  have hordered : ran.Ordered (Exchange.FailsWith limit pipeline) 0 (0 + pipeline.length) :=
    runFrom_ordered (Nat.le_refl 0) List.drop_zero (Stream.ordered_ofList items) false
  obtain ⟨hascending, hbounds⟩ := hordered.ascending script
  refine ⟨hascending, fun x hx hexternal => ?_, fun x hx f hf => hordered.stops hx hf⟩
  have hlt := (hbounds x hx hexternal).2
  rwa [Nat.zero_add] at hlt

/-- A question is answered with yes, then the first of two subprocesses ends badly. -/
theorem failed_subprocess_stops :
    let pipeline : Pipeline := [⟨"approve", Args.empty⟩, ⟨"exec", [("_", .many ["false"])]⟩,
      ⟨"exec", [("_", .many ["date"])]⟩]
    let ran := run (Registry.builtin none) ⟨.human, [], true⟩ pipeline (.ofList [.value (.int 1)])
    let script : Script := ⟨[.finished [] [] 3], [], [true]⟩
    let x : Exchange := ⟨1, .spawn "false" none, ProcessResult.finished [] [] 3⟩
    let f : Failure := .command (.exited 3 "false")
    x ∈ ran.exchanges script ∧ x.FailsWith none pipeline f ∧
      (ran.run script).result = .error f ∧ ∃ before, ran.exchanges script = before ++ [x] := by
  intro pipeline ran script x f
  have hexchanges : ran.exchanges script = [⟨0, .start ⟨"approve", Args.empty⟩, ()⟩,
      ⟨1, .start ⟨"exec", [("_", .many ["false"])]⟩, ()⟩,
      ⟨2, .start ⟨"exec", [("_", .many ["date"])]⟩, ()⟩,
      ⟨0, .confirm "Approve? (1 item(s))", true⟩, x] := by
    rfl
  have hmem : x ∈ ran.exchanges script := by
    rw [hexchanges]
    simp
  have hfails : x.FailsWith none pipeline f := .exited (by omega) rfl
  have hstops := (effects_ascend_and_stop none ⟨.human, [], true⟩ pipeline [.value (.int 1)]
    script).2.2 x hmem f hfails
  exact ⟨hmem, hfails, hstops⟩

end Pipeline

end Sluice
