import Sluice.Proofs.Command.Plan

/-!
What a run does before its first pull. It looks its stages up, announces them and lets them read
their arguments, and nothing of that pulls the source. So a stage that cannot be opened ends the run
before anything is seen outside, whatever effects the stages before it would have had. A gate of a
tool is the one exception: there the run pulls before it looks at the next stage.
-/

namespace Sluice

/-- A stage that cannot be opened, with what a run fails with at it: no command has its name, or its
command refuses its arguments. -/
inductive Invocation.Refused (registry : Registry) (ctx : Context) (index : Nat)
    (stage : Invocation) : Failure → Prop where
  | unknown (hfind : registry.find? stage.name = none) :
      Refused registry ctx index stage (.unknownCommand stage.name)
  | rejected {c : Command} {source : Stream} {f : Failure}
      (hfind : registry.find? stage.name = some c)
      (hrun : c.run index ctx stage.args source = .error f) :
      Refused registry ctx index stage f

variable {limit : Option Binary64} {ctx : Context} {index : Nat} {stage : Invocation} {f : Failure}

/-- The commands that come with the program refuse arguments without a look at the source. -/
theorem Invocation.refused_builtin_iff :
    stage.Refused (Registry.builtin limit) ctx index f ↔
      (Plan.builtin? limit stage.name = none ∧ f = .unknownCommand stage.name) ∨
        ∃ r, Plan.builtin? limit stage.name = some r ∧ r index ctx stage.args = .error f := by
  have hfound := Registry.find?_builtin limit stage.name
  constructor
  · rintro (hfind | ⟨hfind, hrun⟩)
    · rw [hfind] at hfound
      generalize Plan.builtin? limit stage.name = reader at hfound
      cases hfound
      exact .inl ⟨rfl, rfl⟩
    · rw [hfind] at hfound
      generalize Plan.builtin? limit stage.name = reader at hfound
      cases hfound with
      | @some _ r hfollows =>
        refine .inr ⟨r, rfl, ?_⟩
        rw [hfollows] at hrun
        cases hp : r index ctx stage.args with
        | error e =>
          rw [hp] at hrun
          exact congrArg Except.error (Except.error.inj hrun)
        | ok p =>
          rw [hp] at hrun
          cases hrun
  · rintro (⟨hreader, rfl⟩ | ⟨r, hreader, hrun⟩)
    · rw [hreader] at hfound
      apply Refused.unknown
      generalize (Registry.builtin limit).find? stage.name = found at hfound
      cases hfound
      rfl
    · rw [hreader] at hfound
      generalize hfind : (Registry.builtin limit).find? stage.name = found at hfound
      cases hfound with
      | @some c _ hfollows =>
        have hrejected : c.run index ctx stage.args .done = .error f := by
          rw [hfollows, hrun]
          rfl
        exact .rejected hfind hrejected

/-- A stage that can be opened has decided what to do with its source. -/
theorem Invocation.opens_of_not_refused
    (h : ∀ g, ¬ stage.Refused (Registry.builtin limit) ctx index g) :
    ∃ r p, Plan.builtin? limit stage.name = some r ∧ r index ctx stage.args = .ok p := by
  cases hr : Plan.builtin? limit stage.name with
  | none =>
    exact absurd (refused_builtin_iff.mpr (.inl ⟨hr, rfl⟩)) (h (.unknownCommand stage.name))
  | some r =>
    cases hp : r index ctx stage.args with
    | error g => exact absurd (refused_builtin_iff.mpr (.inr ⟨r, hr, hp⟩)) (h g)
    | ok p => exact ⟨r, p, rfl, hp⟩

namespace Pipeline

/-- What a log holds of stages that are opened one after the other, the first under an index. -/
def announcements (index : Nat) : Pipeline → List Logged
  | [] => []
  | stage :: rest => ⟨index, .start stage⟩ :: announcements (index + 1) rest

def announcing {α : Type} (index : Nat) (p : Program α) : Pipeline → Program α
  | [] => p
  | stage :: rest => .perform index (.start stage) fun _ => announcing (index + 1) p rest

theorem run_announcing {α : Type} (index : Nat) (p : Program α) (stages : Pipeline)
    (script : Script) :
    (announcing index p stages).run script =
      ⟨(p.run script).result, (p.run script).script,
        announcements index stages ++ (p.run script).log⟩ := by
  induction stages generalizing index with
  | nil => rfl
  | cons stage rest ih =>
    simp only [announcing, announcements, Program.run, Script.answer, ih]
    rfl

theorem announcing_append {α : Type} (p : Program α) (front back : Pipeline) :
    announcing index p (front ++ back) =
      announcing index (announcing (index + front.length) p back) front := by
  induction front generalizing index with
  | nil => rfl
  | cons stage front ih =>
    rw [List.cons_append, announcing, ih, announcing, List.length_cons, Nat.add_assoc,
      Nat.add_comm 1]

/-- A run from an index on that meets a stage that cannot be opened, with no gate before it, announces
the stages up to there and fails, whatever it is to pull. -/
theorem runFrom_refused {pipeline : Pipeline} {k : Nat} (hstage : pipeline[k]? = some stage)
    (hrefused : stage.Refused (Registry.builtin limit) ctx (index + k) f)
    (hleast : ∀ i s, i < k → pipeline[i]? = some s →
      ∀ g, ¬ s.Refused (Registry.builtin limit) ctx (index + i) g)
    (hopen : ∀ i s, i < k → pipeline[i]? = some s → s.name = "approve" → ctx.mode = .human) :
    ∃ n, k ≤ n ∧ n ≤ k + 1 ∧ ∀ source rendered,
      runFrom (Registry.builtin limit) ctx index source rendered pipeline =
        announcing index (.fail f) (pipeline.take n) := by
  induction pipeline generalizing index k with
  | nil => cases hstage
  | cons first rest ih =>
    cases k with
    | zero =>
      obtain rfl := Option.some.inj hstage
      rw [Nat.add_zero] at hrefused
      rcases Invocation.refused_builtin_iff.mp hrefused with ⟨hr, rfl⟩ | ⟨r, hr, hp⟩
      · refine ⟨0, Nat.le_refl 0, Nat.zero_le 1, fun source rendered => ?_⟩
        rw [runFrom_builtin_cons, hr]
        rfl
      · refine ⟨1, Nat.zero_le 1, Nat.le_refl 1, fun source rendered => ?_⟩
        rw [runFrom_builtin_cons, hr]
        simp only [hp]
        rfl
    | succ k =>
      obtain ⟨r, p, hr, hp⟩ :=
        Invocation.opens_of_not_refused (hleast 0 first (Nat.succ_pos k) rfl)
      rw [Nat.add_zero] at hp
      have hshift (i : Nat) : index + (i + 1) = index + 1 + i := by omega
      obtain ⟨n, hfrom, hto, hrest⟩ := ih hstage (hshift k ▸ hrefused)
        (fun i s hi hs => hshift i ▸ hleast (i + 1) s (Nat.succ_lt_succ hi) hs)
        (fun i s hi hs => hopen (i + 1) s (Nat.succ_lt_succ hi) hs)
      refine ⟨n + 1, Nat.succ_le_succ hfrom, Nat.succ_le_succ hto, fun source rendered => ?_⟩
      rw [runFrom_cons_open (hopen 0 first (Nat.succ_pos k) rfl), hr]
      simp only [hp, hrest]
      rfl

/-- Take the first stage that cannot be opened, and let no gate of a tool stand before it. The run
fails with what that stage is refused with, and has announced no stage behind it. Nothing else is in
its log, all of the script is left, and the same is true whatever the source is, so nothing of that
is pulled: a source may leave a note, start a subprocess or fail at its first pull. -/
theorem refusal_before_effects (limit : Option Binary64) (ctx : Context) (pipeline : Pipeline)
    {k : Nat} {stage : Invocation} {f : Failure} (hstage : pipeline[k]? = some stage)
    (hrefused : stage.Refused (Registry.builtin limit) ctx k f)
    (hleast : ∀ i s, i < k → pipeline[i]? = some s →
      ∀ g, ¬ s.Refused (Registry.builtin limit) ctx i g)
    (hgate : ctx.mode = .tool → ∀ i s, i < k → pipeline[i]? = some s → s.name ≠ "approve") :
    ∃ n, k ≤ n ∧ n ≤ k + 1 ∧ ∀ source script,
      (run (Registry.builtin limit) ctx pipeline source).run script =
        ⟨.error f, script, announcements 0 (pipeline.take n)⟩ := by
  have hopen : ∀ i s, i < k → pipeline[i]? = some s → s.name = "approve" → ctx.mode = .human := by
    intro i s hi hs hname
    cases hmode : ctx.mode with
    | human => rfl
    | tool => exact absurd hname (hgate hmode i s hi hs)
  have hrefused : stage.Refused (Registry.builtin limit) ctx (0 + k) f := by
    rwa [Nat.zero_add]
  have hleast : ∀ i s, i < k → pipeline[i]? = some s →
      ∀ g, ¬ s.Refused (Registry.builtin limit) ctx (0 + i) g := by
    intro i
    rw [Nat.zero_add]
    exact hleast i
  obtain ⟨n, hfrom, hto, hrun⟩ := runFrom_refused hstage hrefused hleast hopen
  refine ⟨n, hfrom, hto, fun source script => ?_⟩
  rw [run, hrun, run_announcing]
  simp only [Program.run, List.append_nil]

/-- A person would be asked and a subprocess started, but the count of a later stage is no number.
The source would leave a note and fail if it were pulled. -/
theorem refused_count_before_question :
    let ctx : Context := ⟨.human, [], true⟩
    let pipeline : Pipeline := [⟨"exec", [("_", .many ["date"])]⟩, ⟨"approve", Args.empty⟩,
      ⟨"head", [("_", .many ["two"])]⟩, ⟨"nope", Args.empty⟩]
    let source : Stream := .perform 0 (.note "pulled") fun _ => .fail .requestNotJson
    let script : Script := ⟨[.timedOut], [], [true]⟩
    ∃ n, 2 ≤ n ∧ n ≤ 3 ∧ (run (Registry.builtin none) ctx pipeline source).run script =
      ⟨.error (.command (.countNotInteger "two")), script, announcements 0 (pipeline.take n)⟩ := by
  intro ctx pipeline source script
  have hstage : pipeline[2]? = some ⟨"head", [("_", .many ["two"])]⟩ := rfl
  have hrefused : Invocation.Refused (Registry.builtin none) ctx 2
      ⟨"head", [("_", .many ["two"])]⟩ (.command (.countNotInteger "two")) :=
    Invocation.refused_builtin_iff.mpr (.inr ⟨Plan.head, rfl, rfl⟩)
  have hleast : ∀ i s, i < 2 → pipeline[i]? = some s →
      ∀ g, ¬ s.Refused (Registry.builtin none) ctx i g := by
    intro i s hi hs g hg
    have hcase : i = 0 ∨ i = 1 := by omega
    rcases hcase with rfl | rfl
    · obtain rfl := Option.some.inj hs
      rcases Invocation.refused_builtin_iff.mp hg with ⟨hr, -⟩ | ⟨r, hr, hp⟩
      · cases hr
      · cases hr
        cases hp
    · obtain rfl := Option.some.inj hs
      rcases Invocation.refused_builtin_iff.mp hg with ⟨hr, -⟩ | ⟨r, hr, hp⟩
      · cases hr
      · cases hr
        cases hp
  obtain ⟨n, hfrom, hto, hrun⟩ :=
    refusal_before_effects none ctx pipeline hstage hrefused hleast nofun
  exact ⟨n, hfrom, hto, hrun source script⟩

end Pipeline

end Sluice
