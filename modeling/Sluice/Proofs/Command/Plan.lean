import Sluice.Proofs.Stream.Laws
import Sluice.Run

/-!
What a stage of a command that comes with the program decides before anything is pulled. Each of
them reads its arguments and then does one of four things with its source: it hands it on, turns
items into items, keeps the first ones, or gathers them all and goes on with a program of its own.
The decision is read off the command here once, so that what follows about runs is about four
cases and not about eight commands.
-/

namespace Sluice

/-- What a stage does with its source. -/
inductive Action where
  | pass
  | expand (f : Item → Except Failure (List Item))
  | take (n : Nat)
  | gather (k : List Item → Program (List Item))

def Action.apply : Action → Stream → Stream
  | .pass, s => s
  | .expand f, s => s.expand f
  | .take n, s => s.take n
  | .gather k, s => .ofProgram (s.collect.bind k)

/-- What a stage has decided once its arguments are read. -/
structure Plan where
  action : Action
  rendered : Bool
  halt : Bool

namespace Plan

/-- A stage that neither presents nor halts. -/
def plain (action : Action) : Plan :=
  ⟨action, false, false⟩

def output (p : Plan) (source : Stream) : StageOutput :=
  ⟨p.action.apply source, p.rendered, p.halt⟩

/-- A way to decide: from the index of the stage, the context and the arguments. -/
abbrev Reader := Nat → Context → Args → Except Failure Plan

def spawn (limit : Option Binary64) (stage : Nat) (ctx : Context) (command : String)
    (asJson : Bool) : Program (List Item) := do
  let result ← Program.effect stage (.spawn command (Exec.environment ctx))
  Program.ofExcept (Exec.items limit command asJson result)

def exec (limit : Option Binary64) : Reader := fun stage ctx args =>
  let (asJson, words) := Exec.commandWords args
  if words.isEmpty then refuse .noCommandLine
  else .ok (plain (.gather fun _ => spawn limit stage ctx (" ".intercalate words) asJson))

def json : Reader := fun _ _ _ => .ok (plain (.expand Decode.items))

def head : Reader := fun _ _ args => (Head.count args).map fun n => plain (.take n)

def pick : Reader := fun _ _ args =>
  let fields := Pick.fields args
  if fields.isEmpty then refuse .noFields
  else .ok (plain (.expand fun x => .ok [Pick.item fields x]))

def keep (conditions : List Condition) (x : Item) : Except Failure (List Item) :=
  .ok (if Condition.keeps conditions x then [x] else [])

def filter : Reader := fun _ _ args =>
  match args.positional.mapM Condition.parse with
  | .error f => .error f
  | .ok conditions =>
    if conditions.isEmpty then refuse .noConditions else .ok (plain (.expand (keep conditions)))

def print (stage : Nat) (width : Int) (items : List Item) : Program (List Item) := do
  let text ← Program.ofExcept (Table.page width items)
  let _ ← Program.effect stage (.print text)
  pure items

def table : Reader := fun stage ctx args =>
  match ctx.mode with
  | .tool => .ok (plain .pass)
  | .human =>
    (args.integer "width" Table.defaultWidth).map fun width =>
      ⟨.gather (print stage width), true, false⟩

/-- The question of `approve` about some items, and the items once a person has agreed. -/
def ask (stage : Nat) (ctx : Context) (prompt : String) (items : List Item) :
    Program (List Item) := do
  if ctx.interactive then
    let agreed : Bool ← Program.effect stage (.confirm s!"{prompt} ({items.length} item(s))")
    if agreed then pure items else Program.fail (.command .notApproved)
  else Program.fail (.command .notInteractive)

def approve : Reader := fun stage ctx args =>
  let prompt := Approve.prompt args
  match ctx.mode with
  | .tool => .ok ⟨.gather fun items => .pure [.request items prompt], false, true⟩
  | .human => .ok (plain (.gather (ask stage ctx prompt)))

def send (stage : Nat) (c : Invoke.Call) : Program (List Item) := do
  let request ← Program.ofExcept (Invoke.post .standard c)
  let reply ← Program.effect stage (.post request)
  Program.ofExcept (Invoke.items reply)

def invoke : Reader := fun stage ctx args =>
  (Invoke.call ctx args).map fun c => plain (.gather fun _ => send stage c)

def builtin? (limit : Option Binary64) (name : String) : Option Reader :=
  if name = "exec" then some (exec limit)
  else if name = "json" then some json
  else if name = "head" then some head
  else if name = "pick" then some pick
  else if name = "where" then some filter
  else if name = "table" then some table
  else if name = "approve" then some approve
  else if name = "invoke" then some invoke
  else none

end Plan

/-- A command does what a way to decide says, whatever its source. -/
def Command.Follows (c : Command) (r : Plan.Reader) : Prop :=
  ∀ stage ctx args source, c.run stage ctx args source = (r stage ctx args).map (·.output source)

namespace Command

theorem exec_follows (limit : Option Binary64) : (exec limit).Follows (Plan.exec limit) := by
  intro stage ctx args source
  simp only [exec, Plan.exec]
  split
  · rfl
  · rfl

theorem json_follows : json.Follows Plan.json := fun _ _ _ _ => rfl

theorem head_follows : head.Follows Plan.head := by
  intro stage ctx args source
  simp only [head, Plan.head]
  cases Head.count args <;> rfl

theorem pick_follows : pick.Follows Plan.pick := by
  intro stage ctx args source
  simp only [pick, Plan.pick]
  split
  · rfl
  · rfl

theorem filter_follows : filter.Follows Plan.filter := by
  intro stage ctx args source
  simp only [filter, Plan.filter]
  cases args.positional.mapM Condition.parse with
  | error f => rfl
  | ok conditions =>
    change (if conditions.isEmpty then _ else _) = Except.map _ (if conditions.isEmpty then _ else _)
    split
    · rfl
    · rfl

theorem table_follows : table.Follows Plan.table := by
  intro stage ctx args source
  simp only [table, Plan.table]
  cases ctx.mode with
  | tool => rfl
  | human => cases args.integer "width" Table.defaultWidth <;> rfl

theorem approve_follows : approve.Follows Plan.approve := by
  intro stage ctx args source
  simp only [approve, Plan.approve]
  cases ctx.mode <;> rfl

theorem invoke_follows : (invoke .standard).Follows Plan.invoke := by
  intro stage ctx args source
  simp only [invoke, Plan.invoke]
  cases Invoke.call ctx args <;> rfl

end Command

/-- The command that is found under a name is the one whose way to decide stands under it. -/
theorem Registry.find?_builtin (limit : Option Binary64) (name : String) :
    Option.Rel Command.Follows ((Registry.builtin limit).find? name) (Plan.builtin? limit name) := by
  have cons (c : Command) (r : Plan.Reader) (cs : List Command) (o : Option Plan.Reader)
      (hc : c.Follows r)
      (h : Option.Rel Command.Follows (cs.find? fun c => c.name == name) o) :
      Option.Rel Command.Follows ((c :: cs).find? fun c => c.name == name)
        (if name = c.name then some r else o) := by
    rw [List.find?_cons]
    by_cases hname : name = c.name
    · rw [if_pos hname, hname, beq_self_eq_true]
      exact .some hc
    · rw [if_neg hname, beq_eq_false_iff_ne.mpr (Ne.symm hname)]
      exact h
  exact cons _ _ _ _ (Command.exec_follows limit) <| cons _ _ _ _ Command.json_follows <|
    cons _ _ _ _ Command.head_follows <| cons _ _ _ _ Command.pick_follows <|
    cons _ _ _ _ Command.filter_follows <| cons _ _ _ _ Command.table_follows <|
    cons _ _ _ _ Command.approve_follows <| cons _ _ _ _ Command.invoke_follows .none

/-- The stages before one stage of a pipeline, the stage, and the stages after it. -/
theorem Pipeline.split_at {pipeline : Pipeline} {index : Nat} {stage : Invocation}
    (h : pipeline[index]? = some stage) :
    pipeline = pipeline.take index ++ stage :: pipeline.drop (index + 1) ∧
      (pipeline.take index).length = index := by
  obtain ⟨hlt, rfl⟩ := List.getElem?_eq_some_iff.mp h
  constructor
  · rw [List.getElem_cons_drop, List.take_append_drop]
  · rw [List.length_take, Nat.min_eq_left (Nat.le_of_lt hlt)]

/-- A run meets a stage of a command that comes with the program: the stage is announced, its
arguments are read, and the run goes on with the output of its action. -/
theorem Pipeline.runFrom_builtin_cons (limit : Option Binary64) (ctx : Context) (index : Nat)
    (source : Stream) (rendered : Bool) (stage : Invocation) (rest : Pipeline) :
    runFrom (Registry.builtin limit) ctx index source rendered (stage :: rest) =
      match Plan.builtin? limit stage.name with
      | none => .fail (.unknownCommand stage.name)
      | some r =>
        .perform index (.start stage) fun _ =>
          match r index ctx stage.args with
          | .error f => .fail f
          | .ok p =>
            if p.halt then
              (p.action.apply source).collect.bind fun items =>
                match Item.soleApproval? items with
                | some a => .pure (.haltedOn index a)
                | none =>
                  runFrom (Registry.builtin limit) ctx (index + 1) (.ofList items) p.rendered rest
            else
              runFrom (Registry.builtin limit) ctx (index + 1) (p.action.apply source) p.rendered
                rest := by
  have hfind := Registry.find?_builtin limit stage.name
  rw [runFrom]
  generalize (Registry.builtin limit).find? stage.name = found at hfind
  generalize Plan.builtin? limit stage.name = reader at hfind
  cases hfind with
  | none => rfl
  | @some c r hfollows =>
    simp only [hfollows index ctx stage.args source]
    congr 1
    funext _
    cases r index ctx stage.args with
    | error f => rfl
    | ok p => rfl

/-- What a stage can have decided, command by command: the arguments that it has accepted and what
it will do with its source. -/
inductive Plan.Decided (limit : Option Binary64) (stage : Nat) (ctx : Context) (args : Args) :
    String → Plan → Prop where
  | exec {asJson : Bool} {words : List String} (hwords : Exec.commandWords args = (asJson, words))
      (hne : words.isEmpty = false) :
      Decided limit stage ctx args "exec"
        (plain (.gather fun _ => spawn limit stage ctx (" ".intercalate words) asJson))
  | json : Decided limit stage ctx args "json" (plain (.expand Decode.items))
  | head {n : Nat} (hcount : Head.count args = .ok n) :
      Decided limit stage ctx args "head" (plain (.take n))
  | pick (hfields : (Pick.fields args).isEmpty = false) :
      Decided limit stage ctx args "pick"
        (plain (.expand fun x => .ok [Pick.item (Pick.fields args) x]))
  | filter {conditions : List Condition}
      (hparse : args.positional.mapM Condition.parse = .ok conditions)
      (hne : conditions.isEmpty = false) :
      Decided limit stage ctx args "where" (plain (.expand (keep conditions)))
  | pass (hmode : ctx.mode = .tool) : Decided limit stage ctx args "table" (plain .pass)
  | print {width : Int} (hmode : ctx.mode = .human)
      (hwidth : args.integer "width" Table.defaultWidth = .ok width) :
      Decided limit stage ctx args "table" ⟨.gather (print stage width), true, false⟩
  | request (hmode : ctx.mode = .tool) :
      Decided limit stage ctx args "approve"
        ⟨.gather fun items => .pure [.request items (Approve.prompt args)], false, true⟩
  | ask (hmode : ctx.mode = .human) :
      Decided limit stage ctx args "approve"
        (plain (.gather (ask stage ctx (Approve.prompt args))))
  | invoke {c : Invoke.Call} (hcall : Invoke.call ctx args = .ok c) :
      Decided limit stage ctx args "invoke" (plain (.gather fun _ => send stage c))

namespace Plan

variable {limit : Option Binary64} {name : String} {r : Reader} {stage : Nat} {ctx : Context}
  {args : Args} {p : Plan}

theorem builtin?_cases (h : builtin? limit name = some r) :
    (name = "exec" ∧ r = exec limit) ∨ (name = "json" ∧ r = json) ∨ (name = "head" ∧ r = head) ∨
      (name = "pick" ∧ r = pick) ∨ (name = "where" ∧ r = filter) ∨ (name = "table" ∧ r = table) ∨
      (name = "approve" ∧ r = approve) ∨ (name = "invoke" ∧ r = invoke) := by
  unfold builtin? at h
  repeat' split at h
  all_goals simp_all

theorem decided (hr : builtin? limit name = some r) (hp : r stage ctx args = .ok p) :
    Decided limit stage ctx args name p := by
  rcases builtin?_cases hr with ⟨rfl, rfl⟩ | ⟨rfl, rfl⟩ | ⟨rfl, rfl⟩ | ⟨rfl, rfl⟩ | ⟨rfl, rfl⟩ |
    ⟨rfl, rfl⟩ | ⟨rfl, rfl⟩ | ⟨rfl, rfl⟩
  · cases hwords : Exec.commandWords args with
    | mk asJson words =>
      simp only [exec, hwords] at hp
      cases hne : words.isEmpty with
      | true => simp [hne, refuse] at hp
      | false =>
        simp only [hne, Bool.false_eq_true, ↓reduceIte, Except.ok.injEq] at hp
        exact hp ▸ .exec hwords hne
  · cases hp
    exact .json
  · cases hcount : Head.count args with
    | error f => simp [head, hcount, Except.map] at hp
    | ok n =>
      simp only [head, hcount, Except.map, Except.ok.injEq] at hp
      exact hp ▸ .head hcount
  · cases hfields : (Pick.fields args).isEmpty with
    | true => simp [pick, hfields, refuse] at hp
    | false =>
      simp only [pick, hfields, Bool.false_eq_true, ↓reduceIte, Except.ok.injEq] at hp
      exact hp ▸ .pick hfields
  · cases hparse : args.positional.mapM Condition.parse with
    | error f => simp [filter, hparse] at hp
    | ok conditions =>
      cases hne : conditions.isEmpty with
      | true => simp [filter, hparse, hne, refuse] at hp
      | false =>
        simp only [filter, hparse, hne, Bool.false_eq_true, ↓reduceIte, Except.ok.injEq] at hp
        exact hp ▸ .filter hparse hne
  · cases hmode : ctx.mode with
    | tool =>
      simp only [table, hmode, Except.ok.injEq] at hp
      exact hp ▸ .pass hmode
    | human =>
      cases hwidth : args.integer "width" Table.defaultWidth with
      | error f => simp [table, hmode, hwidth, Except.map] at hp
      | ok width =>
        simp only [table, hmode, hwidth, Except.map, Except.ok.injEq] at hp
        exact hp ▸ .print hmode hwidth
  · cases hmode : ctx.mode with
    | tool =>
      simp only [approve, hmode, Except.ok.injEq] at hp
      exact hp ▸ .request hmode
    | human =>
      simp only [approve, hmode, Except.ok.injEq] at hp
      exact hp ▸ .ask hmode
  · cases hcall : Invoke.call ctx args with
    | error f => simp [invoke, hcall, Except.map] at hp
    | ok c =>
      simp only [invoke, hcall, Except.map, Except.ok.injEq] at hp
      exact hp ▸ .invoke hcall

end Plan

/-- Whatever an action does itself, it does in the name of one stage, and it announces none. -/
def Action.OwnedBy (stage : Nat) : Action → Prop
  | .gather k => ∀ items, (k items).Within fun s e => s = stage ∧ e.announced? = none
  | _ => True

/-- The output of an action has the effects of its source and those of its own stage. -/
theorem Action.OwnedBy.within {stage : Nat} {action : Action} (h : action.OwnedBy stage)
    {ok : Nat → Effect → Prop} (hown : ∀ e, e.announced? = none → ok stage e) {source : Stream}
    (hsource : source.Within ok) : (action.apply source).Within ok := by
  cases action with
  | pass => exact hsource
  | expand f => exact hsource.expand f
  | take n => exact hsource.take n
  | gather k =>
    refine Stream.within_ofProgram (hsource.collect.bind fun items => (h items).mono ?_)
    rintro s e ⟨rfl, he⟩
    exact hown e he

namespace Plan

variable {limit : Option Binary64} {name : String} {r : Reader} {stage : Nat} {ctx : Context}
  {args : Args} {p : Plan}

theorem owned (hr : builtin? limit name = some r) (hp : r stage ctx args = .ok p) :
    p.action.OwnedBy stage := by
  cases decided hr hp with
  | exec => exact fun _ => ⟨⟨rfl, rfl⟩, fun _ => Program.within_ofExcept _⟩
  | json => trivial
  | head => trivial
  | pick => trivial
  | filter => trivial
  | pass => trivial
  | print =>
    intro items
    apply (Program.within_ofExcept _).bind
    intro text
    exact ⟨⟨rfl, rfl⟩, fun _ => trivial⟩
  | request => exact fun _ => trivial
  | ask =>
    intro items
    unfold ask
    split
    · exact ⟨⟨rfl, rfl⟩, fun (agreed : Bool) => by cases agreed <;> trivial⟩
    · trivial
  | invoke =>
    intro items
    apply (Program.within_ofExcept _).bind
    intro request
    exact ⟨⟨rfl, rfl⟩, fun _ => Program.within_ofExcept _⟩

/-- Only `approve` asks a run to halt, and only when it runs for a tool. -/
theorem halt_iff (hr : builtin? limit name = some r) (hp : r stage ctx args = .ok p) :
    p.halt = true ↔ name = "approve" ∧ ctx.mode = .tool := by
  cases decided hr hp with
  | request hmode => simp [hmode]
  | ask hmode => simp [plain, hmode]
  | _ => simp [plain]

/-- Only `table` presents its output, and only when it runs for a person. -/
theorem rendered_eq_false (hmode : ctx.mode = .tool) (hr : builtin? limit name = some r)
    (hp : r stage ctx args = .ok p) : p.rendered = false := by
  cases decided hr hp with
  | print hhuman =>
    rw [hmode] at hhuman
    cases hhuman
  | _ => rfl

end Plan

/-- A stage that is no gate only adds its action to the stream. -/
theorem Pipeline.runFrom_cons_open {limit : Option Binary64} {ctx : Context} {index : Nat}
    {source : Stream} {rendered : Bool} {stage : Invocation} {rest : Pipeline}
    (hopen : stage.name = "approve" → ctx.mode = .human) :
    runFrom (Registry.builtin limit) ctx index source rendered (stage :: rest) =
      match Plan.builtin? limit stage.name with
      | none => .fail (.unknownCommand stage.name)
      | some r =>
        .perform index (.start stage) fun _ =>
          match r index ctx stage.args with
          | .error f => .fail f
          | .ok p =>
            runFrom (Registry.builtin limit) ctx (index + 1) (p.action.apply source) p.rendered
              rest := by
  rw [runFrom_builtin_cons]
  cases hr : Plan.builtin? limit stage.name with
  | none => rfl
  | some r =>
    simp only
    congr 1
    funext _
    cases hp : r index ctx stage.args with
    | error f => rfl
    | ok p =>
      have hhalt : ¬ p.halt = true := by
        rw [Plan.halt_iff hr hp]
        rintro ⟨hname, hmode⟩
        rw [hopen hname] at hmode
        cases hmode
      simp only [if_neg hhalt]

end Sluice
