import Sluice.Proofs.Command.Plan

/-!
Stages under other indices. What a stage does depends on its arguments and its source, and its index
is only the label of what it does. So a run that starts at a later index is the run from the start
with all labels moved, in its log and at its halt. The one exception is a run without stages, which
halts on a request exactly if there were stages before.
-/

namespace Sluice

def Logged.shift (n : Nat) (e : Logged) : Logged :=
  ⟨e.stage + n, e.effect⟩

namespace Program

variable {α β : Type} {n : Nat}

/-- The program with its effects at stages so much later. -/
def shift (n : Nat) : Program α → Program α
  | .pure a => .pure a
  | .fail f => .fail f
  | .perform stage e next => .perform (stage + n) e fun a => (next a).shift n

@[simp] theorem shift_pure (a : α) : (Program.pure a).shift n = .pure a := rfl

@[simp] theorem shift_fail (f : Failure) : (Program.fail f : Program α).shift n = .fail f := rfl

@[simp] theorem shift_perform (stage : Nat) (e : Effect) (next : e.Answer → Program α) :
    (Program.perform stage e next).shift n = .perform (stage + n) e fun a => (next a).shift n := rfl

@[simp] theorem shift_bind (p : Program α) (f : α → Program β) :
    (p.bind f).shift n = (p.shift n).bind fun a => (f a).shift n := by
  induction p with
  | pure a => rfl
  | fail e => rfl
  | perform stage e next ih => simp only [bind_perform, shift_perform, ih]

@[simp] theorem shift_ofExcept (r : Except Failure α) : (ofExcept r).shift n = ofExcept r := by
  cases r <;> rfl

@[simp] theorem shift_effect (stage : Nat) (e : Effect) :
    (effect stage e).shift n = effect (stage + n) e := rfl

/-- Labels do not matter to what a program is answered and what it comes to. -/
theorem run_shift (p : Program α) (script : Script) :
    (p.shift n).run script =
      ⟨(p.run script).result, (p.run script).script,
        (p.run script).log.map (Logged.shift n)⟩ := by
  induction p generalizing script with
  | pure a => rfl
  | fail e => rfl
  | perform stage e next ih =>
    simp only [shift_perform, run, ih, List.map_cons]
    rfl

end Program

namespace Stream

variable {n : Nat}

def shift (n : Nat) : Stream → Stream
  | .done => .done
  | .fail f => .fail f
  | .yield x rest => .yield x (rest.shift n)
  | .perform stage e next => .perform (stage + n) e fun a => (next a).shift n

theorem shift_prepend (xs : List Item) (s : Stream) :
    (prepend xs s).shift n = prepend xs (s.shift n) := by
  induction xs with
  | nil => rfl
  | cons x xs ih => exact congrArg (Stream.yield x) ih

theorem shift_ofList (xs : List Item) : (ofList xs).shift n = ofList xs :=
  shift_prepend xs .done

theorem shift_ofProgram (p : Program (List Item)) :
    (ofProgram p).shift n = ofProgram (p.shift n) := by
  induction p with
  | pure xs => exact shift_ofList xs
  | fail e => rfl
  | perform stage e next ih => simp only [ofProgram, shift, Program.shift_perform, ih]

theorem collect_shift (s : Stream) : (s.shift n).collect = s.collect.shift n := by
  induction s with
  | done => rfl
  | fail e => rfl
  | yield x rest ih => simp only [shift, collect, ih, Program.shift_bind, Program.shift_pure]
  | perform stage e next ih => simp only [shift, collect, ih, Program.shift_perform]

theorem expand_shift (f : Item → Except Failure (List Item)) (s : Stream) :
    (s.shift n).expand f = (s.expand f).shift n := by
  induction s with
  | done => rfl
  | fail e => rfl
  | yield x rest ih =>
    simp only [shift, expand]
    cases f x with
    | ok xs => rw [ih, shift_prepend]
    | error e => rfl
  | perform stage e next ih => simp only [shift, expand, ih]

theorem take_shift (m : Nat) (s : Stream) : (s.shift n).take m = (s.take m).shift n := by
  induction s generalizing m with
  | done => cases m <;> rfl
  | fail e => cases m <;> rfl
  | yield x rest ih =>
    cases m with
    | zero => rfl
    | succ m => simp only [shift, take, ih]
  | perform stage e next ih =>
    cases m with
    | zero => rfl
    | succ m => simp only [shift, take, ih]

end Stream

namespace Action

def shift (n : Nat) : Action → Action
  | .gather k => .gather fun items => (k items).shift n
  | action => action

theorem apply_shift (action : Action) (n : Nat) (source : Stream) :
    (action.shift n).apply (source.shift n) = (action.apply source).shift n := by
  cases action with
  | pass => rfl
  | expand f => exact Stream.expand_shift f source
  | take m => exact Stream.take_shift m source
  | gather k =>
    simp only [shift, apply, Stream.shift_ofProgram, Stream.collect_shift, Program.shift_bind]

end Action

namespace Plan

variable {limit : Option Binary64} {name : String} {r : Reader} {stage n : Nat} {ctx : Context}
  {args : Args}

def shift (n : Nat) (p : Plan) : Plan :=
  { p with action := p.action.shift n }

theorem spawn_shift (command : String) (asJson : Bool) :
    (spawn limit stage ctx command asJson).shift n =
      spawn limit (stage + n) ctx command asJson := by
  simp only [spawn, Program.monad_bind, Program.shift_bind, Program.shift_effect,
    Program.shift_ofExcept]

theorem print_shift (width : Int) (items : List Item) :
    (print stage width items).shift n = print (stage + n) width items := by
  simp only [print, Program.monad_bind, Program.shift_bind, Program.shift_ofExcept]
  rfl

theorem ask_shift (prompt : String) (items : List Item) :
    (ask stage ctx prompt items).shift n = ask (stage + n) ctx prompt items := by
  rw [ask, ask]
  split
  · change Program.perform _ _ _ = Program.perform _ _ _
    congr 1
    funext (agreed : Bool)
    cases agreed <;> rfl
  · rfl

theorem send_shift (c : Invoke.Call) : (send stage c).shift n = send (stage + n) c := by
  simp only [send, Program.monad_bind, Program.shift_bind, Program.shift_ofExcept,
    Program.shift_effect]

/-- A command decides the same under a later index. -/
theorem reader_shift (hr : builtin? limit name = some r) :
    r (stage + n) ctx args = (r stage ctx args).map (shift n) := by
  rcases builtin?_cases hr with ⟨-, rfl⟩ | ⟨-, rfl⟩ | ⟨-, rfl⟩ | ⟨-, rfl⟩ | ⟨-, rfl⟩ | ⟨-, rfl⟩ |
    ⟨-, rfl⟩ | ⟨-, rfl⟩
  · simp only [exec]
    split
    · rfl
    · simp only [Except.map, shift, plain, Action.shift, spawn_shift]
  · rfl
  · simp only [head]
    cases Head.count args <;> rfl
  · simp only [pick]
    split <;> rfl
  · simp only [filter]
    cases args.positional.mapM Condition.parse with
    | error f => rfl
    | ok conditions =>
      simp only
      split <;> rfl
  · simp only [table]
    cases ctx.mode with
    | tool => rfl
    | human =>
      cases args.integer "width" Table.defaultWidth with
      | error f => rfl
      | ok width => simp only [Except.map, shift, Action.shift, print_shift]
  · simp only [approve]
    cases ctx.mode with
    | tool => rfl
    | human => simp only [Except.map, shift, plain, Action.shift, ask_shift]
  · simp only [invoke]
    cases Invoke.call ctx args with
    | error f => rfl
    | ok c => simp only [Except.map, shift, plain, Action.shift, send_shift]

end Plan

def Outcome.shift (n : Nat) (o : Outcome) : Outcome :=
  { o with haltedAt := o.haltedAt.map (· + (n : Int)) }

theorem Outcome.shift_completed (n : Nat) (items : List Item) (rendered : Bool) :
    (completed items rendered).shift n = completed items rendered := rfl

theorem Outcome.shift_haltedOn (n stage : Nat) (a : Approval) :
    (haltedOn stage a).shift n = haltedOn (stage + n) a := by
  simp only [haltedOn, shift, Option.map_some, Int.natCast_add]

namespace Pipeline

/-- The end of a run with stages, at a later index. -/
theorem finish_shift (last n : Nat) (source : Stream) (rendered : Bool) :
    finish (last + 1 + n) (source.shift n) rendered =
      ((finish (last + 1) source rendered).shift n).bind fun o => .pure (o.shift n) := by
  rw [Nat.add_right_comm]
  simp only [finish, Program.monad_bind, Stream.collect_shift, Program.shift_bind,
    Program.bind_assoc]
  congr 1
  funext items
  cases Item.soleApproval? items with
  | none => rfl
  | some a => exact congrArg Program.pure (Outcome.shift_haltedOn n last a).symm

/-- A run with stages, at a later index. -/
theorem runFrom_shift (limit : Option Binary64) (ctx : Context) (n : Nat) {pipeline : Pipeline}
    {index : Nat} (hstages : 0 < index + pipeline.length) (source : Stream) (rendered : Bool) :
    runFrom (Registry.builtin limit) ctx (index + n) (source.shift n) rendered pipeline =
      ((runFrom (Registry.builtin limit) ctx index source rendered pipeline).shift n).bind
        fun o => .pure (o.shift n) := by
  induction pipeline generalizing index source rendered with
  | nil =>
    obtain ⟨last, rfl⟩ := Nat.exists_eq_succ_of_ne_zero (Nat.ne_of_gt hstages)
    exact finish_shift last n source rendered
  | cons stage rest ih =>
    have hlater : 0 < index + 1 + rest.length := by omega
    rw [runFrom_builtin_cons, runFrom_builtin_cons]
    cases hr : Plan.builtin? limit stage.name with
    | none => rfl
    | some r =>
      simp only [Program.shift_perform, Program.bind_perform]
      congr 1
      funext _
      rw [Plan.reader_shift hr]
      cases r index ctx stage.args with
      | error f => rfl
      | ok p =>
        simp only [Except.map, Plan.shift, Action.apply_shift, Nat.add_right_comm index n 1]
        split
        · simp only [Stream.collect_shift, Program.shift_bind, Program.bind_assoc]
          congr 1
          funext items
          cases Item.soleApproval? items with
          | none =>
            -- What the halt check hands on is a list, which has no labels to move.
            have hrest := ih hlater (.ofList items) p.rendered
            rwa [Stream.shift_ofList] at hrest
          | some a => exact congrArg Program.pure (Outcome.shift_haltedOn n index a).symm
        · exact ih hlater (p.action.apply source) p.rendered

end Pipeline

end Sluice
