import Sluice.Proofs.Command.Soundness
import Sluice.Proofs.Resume.Reopening

/-!
Runs that halt and are resumed again and again. A leg of such a chain announces the stages of its own
pipeline from the front and halts, if it does, at the last one that it has announced. So what remains
for the next leg starts where this one stopped, although each leg counts its stages from zero.
-/

namespace Sluice

inductive Ending where
  | completed (o : Outcome)
  | failed (f : Failure)
  /-- There is no token to go on with. -/
  | unissued (f : Failure)
  /-- A token was issued and not accepted. -/
  | refused (f : Failure)
  /-- The last leg halted and nobody has resumed it. -/
  | halted

/-- A chain of runs: the stages in the order they were started, the pipelines that remained after
each halt, and how it stands. -/
structure Chain where
  started : List Invocation
  remainders : List Pipeline
  ending : Ending

def startedIn (log : List Logged) : List Invocation :=
  log.filterMap fun e => e.effect.announced?

namespace Pipeline

/-- Runs a pipeline and, as long as the run halts, resumes it with the token of its last outcome.
Each leg has a context and a script of its own. -/
def chain (registry : Registry) (key : Option (List UInt8)) (pipeline : Pipeline) (source : Stream) :
    List (Context × Script) → Chain
  | [] => ⟨[], [], .halted⟩
  | (ctx, script) :: legs =>
    let ran := (run registry ctx pipeline source).run script
    match ran.result with
    | .error f => ⟨startedIn ran.log, [], .failed f⟩
    | .ok o =>
      if o.halted then
        match Token.ofOutcome key pipeline o with
        | .error f => ⟨startedIn ran.log, [], .unissued f⟩
        | .ok token =>
          match Token.decode key (some token) with
          | .error f => ⟨startedIn ran.log, [], .refused f⟩
          | .ok c =>
            let later := chain registry key c.remaining (.ofList c.items) legs
            ⟨startedIn ran.log ++ later.started, c.remaining :: later.remainders, later.ending⟩
      else ⟨startedIn ran.log, [], .completed o⟩

variable {registry : Registry} {source : Stream}

theorem startedIn_append (log log' : List Logged) :
    startedIn (log ++ log') = startedIn log ++ startedIn log' :=
  List.filterMap_append

/-- A program that announces no stage has started none. -/
theorem startedIn_quiet {α : Type} {p : Program α} (h : p.Within fun _ e => e.announced? = none)
    (script : Script) : startedIn (p.run script).log = [] := by
  rw [startedIn, List.filterMap_eq_nil_iff]
  intro e he
  exact h.of_mem_log he

/-- A run from an index on, as far as it got: it has started so many stages of its pipeline, and if
it halted then at the last of them, over items that can be kept. -/
structure Advanced (index : Nat) (pipeline : Pipeline) (ran : Ran Outcome) (count : Nat) :
    Prop where
  le : count ≤ pipeline.length
  started : startedIn ran.log = pipeline.take count
  halted : ∀ o, ran.result = .ok o → o.halted = true →
    ∃ stage a, o = .haltedOn stage a ∧ stage + 1 = index + count ∧ ∀ x ∈ a.items, x.WellFormed
  completed : ∀ o, ran.result = .ok o → o.halted = false → count = pipeline.length

theorem advanced_failed (index : Nat) {pipeline : Pipeline} {ran : Ran Outcome} {f : Failure}
    {count : Nat} (hresult : ran.result = .error f) (hle : count ≤ pipeline.length)
    (hstarted : startedIn ran.log = pipeline.take count) : Advanced index pipeline ran count := by
  refine ⟨hle, hstarted, ?_, ?_⟩
  · intro o ho
    rw [hresult] at ho
    cases ho
  · intro o ho
    rw [hresult] at ho
    cases ho

/-- The end of a run starts no stage. -/
theorem finish_advanced (index : Nat) (hsource : source.Sound) (rendered : Bool) (script : Script) :
    Advanced index [] ((finish index source rendered).run script) 0 := by
  have hquiet := startedIn_quiet hsource.collect_within script
  rw [finish, Program.monad_bind, Program.run_bind]
  cases hresult : (source.collect.run script).result with
  | error f => exact advanced_failed index rfl (Nat.le_refl 0) hquiet
  | ok items =>
    have hitems := hsource.collect_ensures.of_result hresult
    simp only
    split
    · rename_i last a hsole
      refine ⟨Nat.le_refl 0, by rw [startedIn_append, hquiet]; rfl, ?_, ?_⟩
      · intro o ho _
        cases ho
        exact ⟨last, a, rfl, rfl, Item.wellFormed_of_soleApproval? hitems hsole⟩
      · intro o ho hhalted
        cases ho
        cases hhalted
    · refine ⟨Nat.le_refl 0, by rw [startedIn_append, hquiet]; rfl, ?_, ?_⟩
      · intro o ho hhalted
        cases ho
        cases hhalted
      · intro o ho _
        rfl

/-- What happens before the first announcement does not count. -/
theorem Advanced.after_quiet {index : Nat} {pipeline : Pipeline} {ran : Ran Outcome} {count : Nat}
    (h : Advanced index pipeline ran count) {log : List Logged} (hlog : startedIn log = []) :
    Advanced index pipeline ⟨ran.result, ran.script, log ++ ran.log⟩ count := by
  refine ⟨h.le, ?_, h.halted, h.completed⟩
  rw [startedIn_append, hlog]
  exact h.started

/-- A stage is announced, and the run goes on with the next one. -/
theorem Advanced.cons {index : Nat} {pipeline : Pipeline} {ran : Ran Outcome} {count : Nat}
    (h : Advanced (index + 1) pipeline ran count) (stage : Invocation) :
    Advanced index (stage :: pipeline) { ran with log := ⟨index, .start stage⟩ :: ran.log }
      (count + 1) := by
  refine ⟨Nat.succ_le_succ h.le, ?_, ?_, ?_⟩
  · rw [List.take_succ_cons, ← h.started]
    rfl
  · intro o ho hhalted
    obtain ⟨last, a, heq, hcount, hitems⟩ := h.halted o ho hhalted
    exact ⟨last, a, heq, by omega, hitems⟩
  · intro o ho hhalted
    rw [h.completed o ho hhalted, List.length_cons]

/-- A run of a sound registry on a sound source starts a front part of its pipeline, and halts at the
last stage of that part if it halts. -/
theorem runFrom_advanced (hregistry : registry.Sound) (ctx : Context) (pipeline : Pipeline)
    (index : Nat) (hsource : source.Sound) (rendered : Bool) (script : Script) :
    ∃ count, Advanced index pipeline
      ((runFrom registry ctx index source rendered pipeline).run script) count := by
  induction pipeline generalizing index source rendered script with
  | nil => exact ⟨0, finish_advanced index hsource rendered script⟩
  | cons stage rest ih =>
    rw [runFrom]
    cases hfind : registry.find? stage.name with
    | none => exact ⟨0, advanced_failed index rfl (Nat.zero_le _) rfl⟩
    | some command =>
      have hmem : command ∈ registry.commands := List.mem_of_find?_eq_some hfind
      simp only [Program.run, Script.answer]
      cases hrun : command.run index ctx stage.args source with
      | error f => exact ⟨1, advanced_failed index rfl (Nat.le_add_left 1 _) rfl⟩
      | ok output =>
        have hstream := hregistry command hmem index ctx stage.args source output hsource hrun
        simp only
        split
        · have hquiet := startedIn_quiet hstream.collect_within script
          rw [Program.monad_bind, Program.run_bind]
          cases hresult : (output.stream.collect.run script).result with
          | error f =>
            refine ⟨1, advanced_failed index rfl (Nat.le_add_left 1 _) ?_⟩
            exact congrArg (stage :: ·) hquiet
          | ok items =>
            have hitems := hstream.collect_ensures.of_result hresult
            simp only
            cases hsole : Item.soleApproval? items with
            | none =>
              obtain ⟨count, hcount⟩ := ih (index + 1) (Stream.sound_ofList hitems) output.rendered
                (output.stream.collect.run script).script
              exact ⟨count + 1, (hcount.after_quiet hquiet).cons stage⟩
            | some a =>
              refine ⟨1, Nat.le_add_left 1 _, ?_, ?_, ?_⟩
              · have hlog : startedIn ((output.stream.collect.run script).log ++ []) = [] := by
                  rw [List.append_nil]
                  exact hquiet
                exact congrArg (stage :: ·) hlog
              · intro o ho _
                cases ho
                exact ⟨index, a, rfl, rfl, Item.wellFormed_of_soleApproval? hitems hsole⟩
              · intro o ho hhalted
                cases ho
                cases hhalted
        · obtain ⟨count, hcount⟩ := ih (index + 1) hstream output.rendered script
          exact ⟨count + 1, hcount.cons stage⟩

end Pipeline

/-- A chain of at most so many runs goes through a pipeline once from the front. -/
structure Chain.GoesThrough (c : Chain) (pipeline : Pipeline) (legs : Nat) : Prop where
  /-- The stages that were started are the first ones of the pipeline, and all of them if the chain
  completes. -/
  started : ∃ count, Pipeline.Same c.started (pipeline.take count) ∧
    ∀ o, c.ending = .completed o → count = pipeline.length
  /-- What remained after each halt is a suffix of the pipeline that starts later than the one
  before. -/
  remainders : ∃ cuts : List Nat, (0 :: cuts).Pairwise (· < ·) ∧ (∀ k ∈ cuts, k ≤ pipeline.length) ∧
    List.Forall₂ (fun rest k => Pipeline.Same rest (pipeline.drop k)) c.remainders cuts
  halts : c.remainders.length ≤ pipeline.length
  /-- Every token that was issued was accepted. -/
  accepted : ∀ f, c.ending ≠ .refused f
  ends : pipeline.length < legs → c.ending ≠ .halted

namespace Chain

variable {pipeline : Pipeline} {legs : Nat}

/-- A chain without a halt goes through its pipeline as far as its only run has started it. -/
theorem goesThrough_of_last {started : List Invocation} {ending : Ending} (count : Nat)
    (hstarted : started = pipeline.take count)
    (hcompleted : ∀ o, ending = .completed o → count = pipeline.length)
    (haccepted : ∀ f, ending ≠ .refused f) (hends : pipeline.length < legs → ending ≠ .halted) :
    GoesThrough ⟨started, [], ending⟩ pipeline legs := by
  refine ⟨⟨count, ?_, hcompleted⟩, ⟨[], ?_, ?_, .nil⟩, Nat.zero_le _, haccepted, hends⟩
  · rw [hstarted]
    exact Pipeline.Same.refl _
  · exact List.pairwise_singleton _ 0
  · exact List.forall_mem_nil _

/-- A run halts, and a chain goes on with what remains. -/
theorem GoesThrough.after_halt {later : Chain} {rest : Pipeline} (h : later.GoesThrough rest legs)
    {started : List Invocation} {count : Nat} (hstarted : started = pipeline.take count)
    (hpos : 0 < count) (hle : count ≤ pipeline.length) (hrest : rest.Same (pipeline.drop count)) :
    GoesThrough ⟨started ++ later.started, rest :: later.remainders, later.ending⟩ pipeline
      (legs + 1) := by
  have hlength : rest.length + count = pipeline.length := by
    rw [hrest.length_eq, List.length_drop]
    omega
  obtain ⟨more, hmore, hcompleted⟩ := h.started
  obtain ⟨cuts, hascending, hbound, hcuts⟩ := h.remainders
  have hhalts := h.halts
  refine ⟨⟨count + more, ?_, ?_⟩, ⟨count :: cuts.map (count + ·), ?_, ?_, ?_⟩, ?_, h.accepted, ?_⟩
  · rw [List.take_add, hstarted]
    exact (Pipeline.Same.refl _).append (hmore.trans (hrest.take more))
  · intro o ho
    rw [hcompleted o ho]
    omega
  · have hshifted := hascending.map (count + ·)
      fun i j (hij : i < j) => Nat.add_lt_add_left hij count
    rw [List.map_cons, Nat.add_zero] at hshifted
    refine List.pairwise_cons.mpr ⟨?_, hshifted⟩
    rw [List.forall_mem_cons]
    refine ⟨hpos, ?_⟩
    intro k hk
    obtain ⟨i, -, rfl⟩ := List.mem_map.mp hk
    exact Nat.lt_of_lt_of_le hpos (Nat.le_add_right count i)
  · rw [List.forall_mem_cons]
    refine ⟨hle, ?_⟩
    intro k hk
    obtain ⟨i, hi, rfl⟩ := List.mem_map.mp hk
    have hi := hbound i hi
    omega
  · refine .cons hrest ?_
    rw [List.forall₂_map_right_iff]
    apply hcuts.imp
    intro r k hr
    rw [← List.drop_drop]
    exact hr.trans (hrest.drop k)
  · rw [List.length_cons]
    omega
  · intro hlegs
    exact h.ends (by omega)

end Chain

namespace Pipeline

/-- A chain of runs over a sound registry, each resumed with the token of the one before, starts each
stage of the pipeline at most once and in order. It never starts over, the tokens that are issued are
accepted, and after at most as many halts as there are stages it completes or fails, if only since
there is no token. -/
theorem chain_goesThrough {registry : Registry} (hregistry : registry.Sound)
    (key : Option (List UInt8)) {pipeline : Pipeline} (hpipeline : pipeline.Lawful)
    {source : Stream} (hsource : source.Sound) (legs : List (Context × Script)) :
    (chain registry key pipeline source legs).GoesThrough pipeline legs.length := by
  induction legs generalizing pipeline source with
  | nil =>
    exact Chain.goesThrough_of_last 0 rfl (by rintro _ ⟨⟩) (by rintro _ ⟨⟩) (by rintro ⟨⟩)
  | cons leg legs ih =>
    obtain ⟨ctx, script⟩ := leg
    rw [chain]
    obtain ⟨count, hadvanced⟩ := runFrom_advanced hregistry ctx pipeline 0 hsource false script
    rw [← run] at hadvanced
    generalize (run registry ctx pipeline source).run script = ran at hadvanced
    cases hresult : ran.result with
    | error f =>
      exact Chain.goesThrough_of_last count hadvanced.started (by rintro _ ⟨⟩) (by rintro _ ⟨⟩)
        (by rintro _ ⟨⟩)
    | ok o =>
      simp only
      cases hhalted : o.halted with
      | false =>
        simp only [Bool.false_eq_true, ↓reduceIte]
        exact Chain.goesThrough_of_last count hadvanced.started
          (fun _ _ => hadvanced.completed o hresult hhalted) (by rintro _ ⟨⟩) (by rintro _ ⟨⟩)
      | true =>
        obtain ⟨stage, a, rfl, hstage, hitems⟩ := hadvanced.halted o hresult hhalted
        rw [Nat.zero_add] at hstage
        have hle : stage + 1 ≤ pipeline.length := hstage ▸ hadvanced.le
        simp only [↓reduceIte]
        cases htoken : Token.ofOutcome key pipeline (.haltedOn stage a) with
        | error f =>
          exact Chain.goesThrough_of_last count hadvanced.started (by rintro _ ⟨⟩)
            (by rintro _ ⟨⟩) (by rintro _ ⟨⟩)
        | ok token =>
          obtain ⟨c, hdecode, hrest, hkept⟩ :=
            Token.decode_ofOutcome key hpipeline hle hitems htoken
          have hsound : (Stream.ofList c.items).Sound := by
            apply Stream.sound_ofList
            rw [hkept, List.forall_mem_map]
            exact fun x hx => Item.wellFormed_stored (hitems x hx)
          have hlater := ih (hrest.lawful (hpipeline.drop (stage + 1))) hsound
          simp only [hdecode]
          rw [hstage] at hrest
          exact hlater.after_halt hadvanced.started (by omega) hadvanced.le hrest

/-- A leg that halts over items that fit into a token, and the chain of what is read from it. -/
theorem chain_cons_halted {registry : Registry} {key : Option (List UInt8)} {pipeline : Pipeline}
    {source : Stream} {ctx : Context} {script : Script} {legs : List (Context × Script)}
    (stage : Nat) (a : Approval) (hstage : stage + 1 ≤ pipeline.length) (c : Continuation)
    (hresult : ((run registry ctx pipeline source).run script).result = .ok (.haltedOn stage a))
    (hwell : Continuation.WellFormed ⟨pipeline, stage + 1, a.items, a.prompt, hstage⟩)
    (hcarried : Continuation.Carried ⟨pipeline, stage + 1, a.items, a.prompt, hstage⟩)
    (hread : Token.ofPayload
      (Continuation.toJson ⟨pipeline, stage + 1, a.items, a.prompt, hstage⟩).kept = .ok c)
    {later : Chain} (hlater : chain registry key c.remaining (.ofList c.items) legs = later) :
    chain registry key pipeline source ((ctx, script) :: legs) =
      ⟨startedIn ((run registry ctx pipeline source).run script).log ++ later.started,
        c.remaining :: later.remainders, later.ending⟩ := by
  have hhalted : (Outcome.haltedOn stage a).halted = true := rfl
  have htoken := (Token.ofOutcome_haltedOn key hstage a).trans (Token.issue_eq_ok key hcarried)
  have hdecode := (Token.decode_encode_eq key hwell).trans hread
  simp only [chain, hresult, hhalted, ↓reduceIte, htoken, hdecode, hlater]

/-- Two gates, each of them resumed. The three runs that this takes leave one of the four unused. Each
run starts the stages up to its gate, and what remains comes out of the tokens with its arguments in
the order of their names. -/
theorem two_gates_goThrough :
    let leg : Context × Script := (⟨.tool, [], false⟩, .empty)
    let key := some (Utf8.encode "secret".toList)
    let items : List Item := [.value (.int 1), .value (.str "two")]
    let first : Invocation := ⟨"approve", [("_", .many ["first?"])]⟩
    let second : Invocation := ⟨"approve", [("_", .many ["second?"])]⟩
    let last : Invocation := ⟨"head", [("n", .single "1"), ("_", .many [])]⟩
    let kept : Invocation := ⟨"head", [("_", .many []), ("n", .single "1")]⟩
    let c := chain (Registry.builtin none) key [first, second, last] (.ofList items)
      [leg, leg, leg, leg]
    c.GoesThrough [first, second, last] 4 ∧
      c = ⟨[first, second, kept], [[second, kept], [kept]],
        .completed (.completed [.value (.int 1)] false)⟩ := by
  intro leg key items first second last kept c
  have hitems : ∀ x ∈ items, x.WellFormed := by
    simp only [items, List.forall_mem_cons]
    exact ⟨Json.wellFormed_int.mpr (Json.lt_pow_maxDigits (show 1 < 10 by omega)), rfl,
      List.forall_mem_nil _⟩
  constructor
  · refine chain_goesThrough (Registry.builtin_sound none) _ ⟨?_, ?_⟩
      (Stream.sound_ofList hitems) _
    · simp [first, second, last, Args.Lawful]
    · exact Json.lt_pow_maxDigits (show 3 < 10 by omega)
  · -- The third run completes, the second halts before it and the first before that.
    have hlast : chain (Registry.builtin none) key [kept] (.ofList items) [leg, leg] =
        ⟨[kept], [], .completed (.completed [.value (.int 1)] false)⟩ := by rfl
    have hsecond : chain (Registry.builtin none) key [second, kept] (.ofList items)
        [leg, leg, leg] =
        ⟨[second, kept], [[kept]], .completed (.completed [.value (.int 1)] false)⟩ :=
      chain_cons_halted 0 ⟨items, "second?"⟩ (by decide)
        ⟨[second, kept], 1, items, "second?", by decide⟩ (by rfl)
        ⟨by simp [second, kept, Args.Lawful], Json.lt_pow_maxDigits (show 1 < 10 by omega), hitems⟩
        ⟨by decide, by decide, by decide⟩ (by rfl) hlast
    exact chain_cons_halted 0 ⟨items, "first?"⟩ (by decide)
      ⟨[first, second, kept], 1, items, "first?", by decide⟩ (by rfl)
      ⟨by simp [first, second, last, Args.Lawful], Json.lt_pow_maxDigits (show 1 < 10 by omega),
        hitems⟩
      ⟨by decide, by decide, by decide⟩ (by rfl) hsecond

end Pipeline

end Sluice
