import Sluice.Proofs.Command.Plan

/-!
`approve` for a tool. The engine pulls the output of such a stage before it looks at the next one,
and what it pulls is always a single request, so a run either fails on the way to its first gate or
halts there. The main statement gives the run in full: the stages before the gate are opened and
pulled, and nothing that stands after the gate has any part in the result, the log or what is left
of the script.
-/

namespace Sluice

namespace Pipeline

/-- Opens some stages one after the other without pulling and gives the stream of the last. -/
def opened (registry : Registry) (ctx : Context) (index : Nat) (source : Stream) :
    Pipeline → Program Stream
  | [] => .pure source
  | stage :: rest =>
    match registry.find? stage.name with
    | none => .fail (.unknownCommand stage.name)
    | some command =>
      .perform index (.start stage) fun _ =>
        match command.run index ctx stage.args source with
        | .error f => .fail f
        | .ok output => opened registry ctx (index + 1) output.stream rest

/-- All items that some stages yield for a source. -/
def yields (registry : Registry) (ctx : Context) (pipeline : Pipeline) (source : Stream) :
    Program (List Item) :=
  (opened registry ctx 0 source pipeline).bind Stream.collect

variable {limit : Option Binary64} {ctx : Context} {index : Nat} {source : Stream}
  {rendered : Bool}

theorem opened_builtin_cons (stage : Invocation) (rest : Pipeline) :
    opened (Registry.builtin limit) ctx index source (stage :: rest) =
      match Plan.builtin? limit stage.name with
      | none => .fail (.unknownCommand stage.name)
      | some r =>
        .perform index (.start stage) fun _ =>
          match r index ctx stage.args with
          | .error f => .fail f
          | .ok p =>
            opened (Registry.builtin limit) ctx (index + 1) (p.action.apply source) rest := by
  have hfind := Registry.find?_builtin limit stage.name
  rw [opened]
  generalize (Registry.builtin limit).find? stage.name = found at hfind
  generalize Plan.builtin? limit stage.name = reader at hfind
  cases hfind with
  | none => rfl
  | @some c r hfollows =>
    simp only [hfollows index ctx stage.args source]
    congr 1
    funext _
    cases r index ctx stage.args with
    | error f => rfl
    | ok p => rfl

/-- Opening stages has no effect but to announce them. -/
theorem opened_within (pipeline : Pipeline) {ok : Nat → Effect → Prop}
    (hok : ∀ s e, index ≤ s → s < index + pipeline.length → ok s e) :
    (opened (Registry.builtin limit) ctx index source pipeline).Within ok := by
  induction pipeline generalizing index source with
  | nil => trivial
  | cons stage rest ih =>
    simp only [List.length_cons] at hok
    rw [opened_builtin_cons]
    split
    · trivial
    · refine ⟨hok _ _ (Nat.le_refl _) (by omega), fun _ => ?_⟩
      split
      · trivial
      · exact ih fun s e hs hlt => hok s e (by omega) (by omega)

/-- The stream of opened stages has the effects of its source and of these stages. -/
theorem opened_ensures (pipeline : Pipeline) {ok : Nat → Effect → Prop}
    (hok : ∀ s e, index ≤ s → s < index + pipeline.length → ok s e) (hsource : source.Within ok) :
    (opened (Registry.builtin limit) ctx index source pipeline).Ensures (·.Within ok) := by
  induction pipeline generalizing index source with
  | nil => exact hsource
  | cons stage rest ih =>
    simp only [List.length_cons] at hok
    rw [opened_builtin_cons]
    split
    · trivial
    · rename_i r hr
      intro _
      split
      · trivial
      · rename_i p hp
        refine ih (fun s e hs hlt => hok s e (by omega) (by omega)) ?_
        exact (Plan.owned hr hp).within (fun e _ => hok _ _ (Nat.le_refl _) (by omega)) hsource

/-- For a tool, a run without a gate among its first stages opens these and goes on with their
stream. None of them presents its output. -/
theorem runFrom_append (hmode : ctx.mode = .tool) {front back : Pipeline}
    (hfront : ∀ stage ∈ front, stage.name ≠ "approve") :
    runFrom (Registry.builtin limit) ctx index source rendered (front ++ back) =
      (opened (Registry.builtin limit) ctx index source front).bind fun stream =>
        runFrom (Registry.builtin limit) ctx (index + front.length) stream
          (rendered && front.isEmpty) back := by
  induction front generalizing index source rendered with
  | nil => simp only [List.nil_append, opened, Program.bind_pure, List.length_nil, Nat.add_zero,
      List.isEmpty_nil, Bool.and_true]
  | cons stage front ih =>
    rw [List.forall_mem_cons] at hfront
    have hopen : stage.name = "approve" → ctx.mode = .human := fun h => absurd h hfront.1
    rw [List.cons_append, runFrom_cons_open hopen, opened_builtin_cons]
    cases hr : Plan.builtin? limit stage.name with
    | none => rfl
    | some r =>
      simp only [Program.bind_perform]
      congr 1
      funext _
      cases hp : r index ctx stage.args with
      | error f => rfl
      | ok p =>
        simp only [ih hfront.2, Plan.rendered_eq_false hmode hr hp, List.length_cons, Nat.add_assoc,
          Nat.add_comm 1, List.isEmpty_cons, Bool.and_false, Bool.false_and]

/-- For a tool, a run up to its first gate opens the stages before it, announces the gate, pulls
everything that comes through and halts. -/
theorem runFrom_gate (hmode : ctx.mode = .tool) {before after : Pipeline}
    (hbefore : ∀ stage ∈ before, stage.name ≠ "approve") {approve : Invocation}
    (hname : approve.name = "approve") :
    runFrom (Registry.builtin limit) ctx index source rendered (before ++ approve :: after) =
      (opened (Registry.builtin limit) ctx index source before).bind fun stream =>
        .perform (index + before.length) (.start approve) fun _ =>
          stream.collect.bind fun items =>
            .pure (.haltedOn (index + before.length) ⟨items, Approve.prompt approve.args⟩) := by
  have hfound : Plan.builtin? limit approve.name = some Plan.approve := hname ▸ rfl
  simp only [runFrom_append hmode hbefore, runFrom_builtin_cons, hfound, Plan.approve, hmode,
    Action.apply, Stream.collect_ofProgram, Program.bind_assoc, Program.bind_pure, ↓reduceIte,
    Item.soleApproval?, Item.approval?]

/-- A run of a tool as what it does up to its first gate. -/
theorem run_gate (hmode : ctx.mode = .tool) {pipeline : Pipeline} {gate : Nat}
    {approve : Invocation} (hgate : pipeline[gate]? = some approve) (hname : approve.name = "approve")
    (hfirst : ∀ i stage, i < gate → pipeline[i]? = some stage → stage.name ≠ "approve") :
    run (Registry.builtin limit) ctx pipeline source =
      (opened (Registry.builtin limit) ctx 0 source (pipeline.take gate)).bind fun stream =>
        .perform gate (.start approve) fun _ =>
          stream.collect.bind fun items =>
            .pure (.haltedOn gate ⟨items, Approve.prompt approve.args⟩) := by
  obtain ⟨hsplit, hlength⟩ := split_at hgate
  have hbefore : ∀ stage ∈ pipeline.take gate, stage.name ≠ "approve" := by
    intro stage hstage
    obtain ⟨i, hi⟩ := List.getElem?_of_mem hstage
    rw [List.getElem?_take] at hi
    split at hi
    · rename_i hlt
      exact hfirst i stage hlt hi
    · cases hi
  have h : run (Registry.builtin limit) ctx
      (pipeline.take gate ++ approve :: pipeline.drop (gate + 1)) source = _ :=
    runFrom_gate hmode hbefore hname
  rwa [← hsplit, hlength, Nat.zero_add] at h

/-- The run of a program that opens stages, announces a gate and pulls ends as pulling without the
announcement does. -/
theorem result_announced (p : Program Stream) (gate : Nat) (approve : Invocation)
    (finish : List Item → Outcome) (script : Script) :
    ((p.bind fun stream => .perform gate (.start approve) fun _ =>
      stream.collect.bind fun items => .pure (finish items)).run script).result =
      ((p.bind Stream.collect).run script).result.map finish := by
  simp only [Program.run_bind]
  cases (p.run script).result with
  | error f => rfl
  | ok stream =>
    simp only [Program.run, Script.answer, Program.run_bind]
    cases (stream.collect.run (p.run script).script).result <;> rfl

/-- A property that fails at first and holds at the end begins to hold for good somewhere between. -/
theorem exists_onset {holds : Nat → Prop} (n : Nat) (hfirst : ¬ holds 0) (hlast : holds n) :
    ∃ k < n, ¬ holds k ∧ ∀ j, k < j → j ≤ n → holds j := by
  induction n with
  | zero => exact absurd hlast hfirst
  | succ n ih =>
    by_cases h : holds n
    · obtain ⟨k, hk, hnot, hfrom⟩ := ih h
      refine ⟨k, by omega, hnot, fun j hkj hj => ?_⟩
      rcases Nat.lt_or_ge n j with hlt | hle
      · rwa [show j = n + 1 by omega]
      · exact hfrom j hkj hle
    · refine ⟨n, by omega, h, fun j hnj hj => ?_⟩
      rwa [show j = n + 1 by omega]

/-- For a tool, a run with a gate halts at its first one with one request for all items that the
stages before the gate yield, or it fails as these stages fail. The failure then belongs to one of
them: without that stage the stages before it do not fail so, and with it they do, however many of
those up to the gate are added. Nothing of a stage after the gate is in the log, and a pipeline
that only differs after the gate has the same run. -/
theorem halts_at_first_gate (limit : Option Binary64) (ctx : Context) (hmode : ctx.mode = .tool)
    (pipeline : Pipeline) (items : List Item) (script : Script) {gate : Nat} {approve : Invocation}
    (hgate : pipeline[gate]? = some approve) (hname : approve.name = "approve")
    (hfirst : ∀ i stage, i < gate → pipeline[i]? = some stage → stage.name ≠ "approve") :
    let ran (p : Pipeline) := (run (Registry.builtin limit) ctx p (.ofList items)).run script
    let yielded (k : Nat) :=
      ((yields (Registry.builtin limit) ctx (pipeline.take k) (.ofList items)).run script).result
    ((∃ xs, yielded gate = .ok xs ∧
        (ran pipeline).result = .ok (.haltedOn gate ⟨xs, Approve.prompt approve.args⟩)) ∨
      ∃ f, (ran pipeline).result = .error f ∧
        ∃ k < gate, yielded k ≠ .error f ∧ ∀ j, k < j → j ≤ gate → yielded j = .error f) ∧
    (∀ e ∈ (ran pipeline).log, e.stage ≤ gate) ∧
    ∀ other, other.take (gate + 1) = pipeline.take (gate + 1) → ran other = ran pipeline := by
  intro ran yielded
  have hrun : (ran pipeline).result =
      (yielded gate).map fun xs => .haltedOn gate ⟨xs, Approve.prompt approve.args⟩ := by
    simp only [ran, yielded, yields]
    rw [run_gate hmode hgate hname hfirst]
    exact result_announced _ _ _ _ _
  refine ⟨?_, ?_, ?_⟩
  · cases hlast : yielded gate with
    | ok xs => exact .inl ⟨xs, rfl, by rw [hrun, hlast]; rfl⟩
    | error f =>
      have hnone : ¬ yielded 0 = .error f := by
        simp [yielded, yields, opened, Program.run]
      exact .inr ⟨f, by rw [hrun, hlast]; rfl, exists_onset gate hnone hlast⟩
  · have hwithin : (run (Registry.builtin limit) ctx pipeline (.ofList items)).Within
        fun s _ => s ≤ gate := by
      rw [run_gate hmode hgate hname hfirst]
      have hlength : (pipeline.take gate).length ≤ gate := List.length_take_le _ _
      refine Program.Within.bind_of_ensures (opened_within _ fun s e _ hs => by omega)
        (opened_ensures _ (fun s e _ hs => by omega) (Stream.within_ofList items))
        fun stream (hstream : stream.Within fun s _ => s ≤ gate) => ?_
      exact ⟨Nat.le_refl gate, fun _ => hstream.collect.bind fun _ => trivial⟩
    exact fun e he => hwithin.of_mem_log he
  · intro other hsame
    have hget (i : Nat) (hi : i < gate + 1) : other[i]? = pipeline[i]? := by
      rw [← List.getElem?_take_of_lt hi, hsame, List.getElem?_take_of_lt hi]
    have htake : other.take gate = pipeline.take gate := by
      have h := congrArg (List.take gate) hsame
      rwa [List.take_take, List.take_take, Nat.min_eq_left (Nat.le_succ gate)] at h
    have hotherGate : other[gate]? = some approve := (hget gate (Nat.lt_succ_self gate)).trans hgate
    have hotherFirst (i : Nat) (stage : Invocation) (hi : i < gate) (hstage : other[i]? = some stage) :
        stage.name ≠ "approve" :=
      hfirst i stage hi ((hget i (Nat.lt_succ_of_lt hi)).symm.trans hstage)
    simp only [ran]
    rw [run_gate hmode hotherGate hname hotherFirst, run_gate hmode hgate hname hfirst, htake]

/-- A gate behind `head` halts with the two items that come through, and it does not matter that the
stage after it names no command. -/
theorem halts_before_unknown_command :
    let ctx : Context := ⟨.tool, [], false⟩
    let items : List Item := [.value (.int 1), .value (.int 2), .value (.int 3)]
    let front : Pipeline := [⟨"head", [("_", .many ["2"])]⟩, ⟨"approve", [("_", .many ["ok?"])]⟩]
    let ran (p : Pipeline) := (run (Registry.builtin none) ctx p (.ofList items)).run .empty
    (ran (front ++ [⟨"nope", Args.empty⟩])).result =
        .ok (.haltedOn 1 ⟨[.value (.int 1), .value (.int 2)], "ok?"⟩) ∧
      ran front = ran (front ++ [⟨"nope", Args.empty⟩]) := by
  intro ctx items front ran
  let back : Pipeline := front ++ [⟨"nope", Args.empty⟩]
  have hfirst : ∀ i stage, i < 1 → back[i]? = some stage → stage.name ≠ "approve" := by
    intro i stage hi hstage
    obtain rfl := Nat.lt_one_iff.mp hi
    obtain rfl := Option.some.inj hstage
    decide
  have hgate : back[1]? = some ⟨"approve", [("_", .many ["ok?"])]⟩ := rfl
  obtain ⟨hresult, -, hsame⟩ :=
    halts_at_first_gate none ctx rfl back items .empty hgate rfl hfirst
  refine ⟨?_, hsame front rfl⟩
  have hyields : ((yields (Registry.builtin none) ctx (back.take 1) (.ofList items)).run
      .empty).result = .ok [.value (.int 1), .value (.int 2)] := rfl
  rcases hresult with ⟨xs, hxs, hresult⟩ | ⟨f, -, k, hk, -, hlast⟩
  · obtain rfl := Except.ok.inj (hyields.symm.trans hxs)
    exact hresult
  · have h := hyields.symm.trans (hlast 1 hk (Nat.le_refl 1))
    cases h

end Pipeline

end Sluice
