import Sluice.Proofs.Command.Plan

/-!
`approve` for a person. The question is asked by the stream of its stage, when that stream is first
pulled, so whether anything after the gate waits for the answer depends on the stages after it
pulling. All of them do, except a `head` that keeps nothing: it ends its output without a pull, and
then neither the question nor anything before it happens, while the stages after it go on.

The main statement settles for each effect beyond a gate whether consent came before it: exactly
when no such `head` stands between the gate and the stage of the effect.
-/

namespace Sluice

def Effect.actsOutside : Effect → Bool
  | .spawn _ _ | .post _ => true
  | .start _ | .note _ | .confirm _ | .print _ => false

/-- Whether an exchange is a question of a stage that was answered with yes. -/
def Exchange.isConsent (gate : Nat) : Exchange → Bool
  | ⟨stage, .confirm _, agreed⟩ => stage == gate && (show Bool from agreed)
  | ⟨_, .start _, _⟩ | ⟨_, .note _, _⟩ | ⟨_, .spawn _ _, _⟩ | ⟨_, .post _, _⟩
  | ⟨_, .print _, _⟩ => false

theorem Exchange.stage_of_isConsent {gate : Nat} {x : Exchange} (h : x.isConsent gate = true) :
    x.stage = gate ∧ ∃ question, x.effect = .confirm question := by
  obtain ⟨stage, effect, answer⟩ := x
  cases effect with
  | confirm question =>
    obtain ⟨hstage, -⟩ := Bool.and_eq_true_iff.mp h
    exact ⟨beq_iff_eq.mp hstage, question, rfl⟩
  | _ => simp [isConsent] at h

def Effect.Awaits (gate stage : Nat) (e : Effect) : Prop :=
  gate < stage ∧ e.actsOutside = true

namespace Program

variable {α β : Type}

/-- Until a gate has consent no effect that awaits it happens, and a path that ends without consent
ends in a failure or in a result with a property. -/
def Withholds (gate : Nat) (post : α → Prop) : Program α → Prop
  | .pure a => post a
  | .fail _ => True
  | .perform stage e next =>
    ¬ e.Awaits gate stage ∧
      ∀ a, Exchange.isConsent gate ⟨stage, e, a⟩ = false → (next a).Withholds gate post

variable {gate : Nat}

theorem Withholds.bind {post : α → Prop} {post' : β → Prop} {p : Program α} {f : α → Program β}
    (hp : p.Withholds gate post) (hf : ∀ a, post a → (f a).Withholds gate post') :
    (p.bind f).Withholds gate post' := by
  induction p with
  | pure a => exact hf a hp
  | fail e => trivial
  | perform stage e next ih => exact ⟨hp.1, fun a ha => ih a (hp.2 a ha)⟩

theorem Within.withholds {p : Program α}
    (h : p.Within fun stage e => ¬ e.Awaits gate stage) : p.Withholds gate fun _ => True := by
  induction p with
  | pure a => trivial
  | fail e => trivial
  | perform stage e next ih => exact ⟨h.1, fun a _ => ih a (h.2 a)⟩

/-- In a run of a program that withholds, every effect that awaits consent has it. -/
theorem Withholds.consent_before {post : α → Prop} {p : Program α} (h : p.Withholds gate post)
    {s : Script} {before after : List Exchange} {x : Exchange}
    (hrun : p.exchanges s = before ++ x :: after) (hx : x.effect.Awaits gate x.stage) :
    ∃ y ∈ before, y.isConsent gate = true := by
  induction p generalizing s before with
  | pure a => simp [exchanges] at hrun
  | fail e => simp [exchanges] at hrun
  | perform stage e next ih =>
    cases before with
    | nil =>
      simp only [exchanges, List.nil_append, List.cons.injEq] at hrun
      obtain ⟨rfl, -⟩ := hrun
      exact absurd hx h.1
    | cons y before =>
      simp only [exchanges, List.cons_append, List.cons.injEq] at hrun
      cases hy : y.isConsent gate with
      | true => exact ⟨y, by simp, hy⟩
      | false =>
        obtain ⟨z, hz, hconsent⟩ := ih _ (h.2 _ (hrun.1 ▸ hy)) hrun.2
        exact ⟨z, by simp [hz], hconsent⟩

end Program

namespace Stream

/-- A stream that shows nothing of itself until a gate has consent: no item, no end, and no effect
that awaits it. -/
def Sealed (gate : Nat) : Stream → Prop
  | .done | .yield _ _ => False
  | .fail _ => True
  | .perform stage e next =>
    ¬ e.Awaits gate stage ∧
      ∀ a, Exchange.isConsent gate ⟨stage, e, a⟩ = false → (next a).Sealed gate

variable {gate : Nat}

theorem Sealed.collect {s : Stream} (h : s.Sealed gate) :
    s.collect.Withholds gate fun _ => False := by
  induction s with
  | done => exact h.elim
  | fail e => trivial
  | yield x rest => exact h.elim
  | perform stage e next ih => exact ⟨h.1, fun a ha => ih a (h.2 a ha)⟩

theorem sealed_ofProgram {p : Program (List Item)} (h : p.Withholds gate fun _ => False) :
    (ofProgram p).Sealed gate := by
  induction p with
  | pure xs => exact h.elim
  | fail e => trivial
  | perform stage e next ih => exact ⟨h.1, fun a ha => ih a (h.2 a ha)⟩

theorem Sealed.expand {s : Stream} (h : s.Sealed gate) (f : Item → Except Failure (List Item)) :
    (s.expand f).Sealed gate := by
  induction s with
  | done => exact h.elim
  | fail e => trivial
  | yield x rest => exact h.elim
  | perform stage e next ih => exact ⟨h.1, fun a ha => ih a (h.2 a ha)⟩

theorem Sealed.take {s : Stream} (h : s.Sealed gate) {n : Nat} (hn : n ≠ 0) :
    (s.take n).Sealed gate := by
  obtain ⟨n, rfl⟩ := Nat.exists_eq_succ_of_ne_zero hn
  induction s with
  | done => exact h.elim
  | fail e => trivial
  | yield x rest => exact h.elim
  | perform stage e next ih => exact ⟨h.1, fun a ha => ih a (h.2 a ha)⟩

end Stream

/-- What an action shows of a sealed source is sealed, unless it keeps nothing of it. -/
theorem Action.sealed {gate : Nat} {action : Action} (hpull : action ≠ .take 0) {source : Stream}
    (h : source.Sealed gate) : (action.apply source).Sealed gate := by
  cases action with
  | pass => exact h
  | expand f => exact h.expand f
  | take n => exact h.take fun hn => hpull (hn ▸ rfl)
  | gather k => exact Stream.sealed_ofProgram (h.collect.bind fun _ => False.elim)

/-- A `head` that keeps nothing. Its output ends without a pull of its source. -/
def Invocation.KeepsNothing (stage : Invocation) : Prop :=
  stage.name = "head" ∧ Head.count stage.args = .ok 0

namespace Plan

variable {limit : Option Binary64} {name : String} {r : Reader} {stage : Nat} {ctx : Context}
  {args : Args} {p : Plan}

theorem keepsNothing_iff (hr : builtin? limit name = some r) (hp : r stage ctx args = .ok p) :
    p.action = .take 0 ↔ Invocation.KeepsNothing ⟨name, args⟩ := by
  cases decided hr hp with
  | head hcount => simp [plain, Invocation.KeepsNothing, hcount]
  | _ => simp [plain, Invocation.KeepsNothing]

/-- For a person, the output of `approve` is sealed by its own question when nothing in its source
awaits the answer. -/
theorem approve_sealed (hname : name = "approve") (hmode : ctx.mode = .human)
    (hr : builtin? limit name = some r) (hp : r stage ctx args = .ok p) {source : Stream}
    (h : source.Within fun s e => ¬ e.Awaits stage s) : (p.action.apply source).Sealed stage := by
  cases decided hr hp with
  | request htool => simp [hmode] at htool
  | ask =>
    refine Stream.sealed_ofProgram (h.collect.withholds.bind fun items _ => ?_)
    unfold ask
    split
    · refine ⟨by simp [Effect.Awaits], fun (agreed : Bool) hno => ?_⟩
      cases agreed with
      | true => simp [Exchange.isConsent] at hno
      | false => trivial
    · trivial
  | _ => simp at hname

end Plan

namespace Pipeline

variable {limit : Option Binary64} {ctx : Context} {gate index : Nat} {source : Stream}
  {rendered : Bool} {stage : Invocation} {rest : Pipeline}

/-- For a person no stage halts a run, so each one only adds its action to the stream. -/
theorem runFrom_cons_human (hmode : ctx.mode = .human) :
    runFrom (Registry.builtin limit) ctx index source rendered (stage :: rest) =
      match Plan.builtin? limit stage.name with
      | none => .fail (.unknownCommand stage.name)
      | some r =>
        .perform index (.start stage) fun _ =>
          match r index ctx stage.args with
          | .error f => .fail f
          | .ok p =>
            runFrom (Registry.builtin limit) ctx (index + 1) (p.action.apply source) p.rendered
              rest :=
  runFrom_cons_open fun _ => hmode

/-- One stage of a run for a person: announcing it awaits nobody, so the run withholds what the
rest of it does. -/
theorem withholds_cons (hmode : ctx.mode = .human) {post : Outcome → Prop}
    (hrest : ∀ r p, Plan.builtin? limit stage.name = some r → r index ctx stage.args = .ok p →
      (runFrom (Registry.builtin limit) ctx (index + 1) (p.action.apply source) p.rendered
        rest).Withholds gate post) :
    (runFrom (Registry.builtin limit) ctx index source rendered (stage :: rest)).Withholds gate
      post := by
  rw [runFrom_cons_human hmode]
  split
  · trivial
  · rename_i r hr
    refine ⟨by simp [Effect.Awaits, Effect.actsOutside], fun _ _ => ?_⟩
    split
    · trivial
    · rename_i p hp
      exact hrest r p hr hp

/-- Behind a sealed stream a run withholds what awaits the gate, however many stages follow, as long
as each of them pulls. -/
theorem runFrom_withholds (hmode : ctx.mode = .human)
    (hpull : ∀ stage ∈ rest, ¬ stage.KeepsNothing) (hsource : source.Sealed gate) :
    (runFrom (Registry.builtin limit) ctx index source rendered rest).Withholds gate
      fun _ => True := by
  induction rest generalizing index source rendered with
  | nil => exact hsource.collect.bind fun _ => False.elim
  | cons stage rest ih =>
    apply withholds_cons hmode
    intro r p hr hp
    have hkeeps : p.action ≠ .take 0 := fun h =>
      hpull stage (by simp) ((Plan.keepsNothing_iff hr hp).mp h)
    exact ih (fun s hs => hpull s (by simp [hs])) (Action.sealed hkeeps hsource)

/-- A run with a gate whose later stages all pull withholds what awaits the gate. -/
theorem runFrom_withholds_of_gate (hmode : ctx.mode = .human) {before after : Pipeline}
    {approve : Invocation} (hname : approve.name = "approve")
    (hpull : ∀ stage ∈ after, ¬ stage.KeepsNothing)
    (hsource : source.Within fun s _ => s < index) :
    (runFrom (Registry.builtin limit) ctx index source rendered
      (before ++ approve :: after)).Withholds (index + before.length) fun _ => True := by
  induction before generalizing index source rendered with
  | nil =>
    apply withholds_cons hmode
    intro r p hr hp
    have hquiet : source.Within fun s e => ¬ e.Awaits index s :=
      hsource.mono fun s e hs (hawaits : e.Awaits index s) => Nat.lt_asymm hs hawaits.1
    exact runFrom_withholds hmode hpull (Plan.approve_sealed hname hmode hr hp hquiet)
  | cons stage before ih =>
    apply withholds_cons hmode
    intro r p hr hp
    have howned : (p.action.apply source).Within fun s _ => s < index + 1 :=
      (Plan.owned hr hp).within (fun _ _ => Nat.lt_succ_self index)
        (hsource.mono fun s _ hs => Nat.lt_succ_of_lt hs)
    rw [List.length_cons, Nat.add_comm before.length 1, ← Nat.add_assoc]
    exact ih howned

/-- An effect that only announces a stage, or one of a stage beyond another. -/
def Beyond (stop stage : Nat) (e : Effect) : Prop :=
  (∃ i, e = .start i) ∨ stop < stage

theorem within_cons {ok : Nat → Effect → Prop} (hmode : ctx.mode = .human)
    (hstart : ok index (.start stage))
    (hrest : ∀ r p, Plan.builtin? limit stage.name = some r → r index ctx stage.args = .ok p →
      (runFrom (Registry.builtin limit) ctx (index + 1) (p.action.apply source) p.rendered
        rest).Within ok) :
    (runFrom (Registry.builtin limit) ctx index source rendered (stage :: rest)).Within ok := by
  rw [runFrom_cons_human hmode]
  split
  · trivial
  · rename_i r hr
    refine ⟨hstart, fun _ => ?_⟩
    split
    · trivial
    · rename_i p hp
      exact hrest r p hr hp

theorem finish_within {ok : Nat → Effect → Prop} (h : source.Within ok) :
    (finish index source rendered).Within ok := by
  apply h.collect.bind
  intro items
  split <;> trivial

/-- What stages beyond an index add to a stream with effects beyond it stays beyond it. -/
theorem runFrom_beyond (hmode : ctx.mode = .human) {stop : Nat} (hindex : stop < index)
    (hsource : source.Within (Beyond stop)) :
    (runFrom (Registry.builtin limit) ctx index source rendered rest).Within (Beyond stop) := by
  induction rest generalizing index source rendered with
  | nil => exact finish_within hsource
  | cons stage rest ih =>
    apply within_cons hmode (.inl ⟨stage, rfl⟩)
    intro r p hr hp
    exact ih (Nat.lt_succ_of_lt hindex)
      ((Plan.owned hr hp).within (fun _ _ => .inr hindex) hsource)

/-- Where a stage keeps nothing, nothing happens in a run up to that stage: the stages before it are
announced and never pulled. -/
theorem runFrom_beyond_of_keepsNothing (hmode : ctx.mode = .human) {before after : Pipeline}
    {stop : Invocation} (hstop : stop.KeepsNothing) :
    (runFrom (Registry.builtin limit) ctx index source rendered (before ++ stop :: after)).Within
      (Beyond (index + before.length)) := by
  induction before generalizing index source rendered with
  | nil =>
    apply within_cons hmode (.inl ⟨stop, rfl⟩)
    intro r p hr hp
    have hdone : p.action.apply source = .done := by
      rw [(Plan.keepsNothing_iff hr hp).mpr hstop, Action.apply, Stream.take]
    rw [hdone]
    exact runFrom_beyond hmode (Nat.lt_succ_self index) trivial
  | cons stage before ih =>
    apply within_cons hmode (.inl ⟨stage, rfl⟩)
    intro r p hr hp
    rw [List.length_cons, Nat.add_comm before.length 1, ← Nat.add_assoc]
    exact ih

/-- In a run for a person, a subprocess or a request of a stage beyond an `approve` has the consent
of that gate before it exactly when no `head` between the two keeps nothing. Through such a `head`
the effect happens without the question being asked. -/
theorem consent_before_iff (limit : Option Binary64) (ctx : Context) (hmode : ctx.mode = .human)
    (pipeline : Pipeline) (items : List Item) (script : Script) {gate : Nat} {approve : Invocation}
    (hgate : pipeline[gate]? = some approve) (hname : approve.name = "approve")
    {before after : List Exchange} {x : Exchange}
    (hrun : (run (Registry.builtin limit) ctx pipeline (.ofList items)).exchanges script =
      before ++ x :: after)
    (hx : x.effect.Awaits gate x.stage) :
    (∃ y ∈ before, y.isConsent gate = true) ↔
      ∀ m stage, gate < m → m < x.stage → pipeline[m]? = some stage → ¬ stage.KeepsNothing := by
  by_cases hpull : ∀ stage ∈ pipeline.drop (gate + 1), ¬ stage.KeepsNothing
  · have hwithholds : (run (Registry.builtin limit) ctx pipeline (.ofList items)).Withholds gate
        fun _ => True := by
      obtain ⟨hsplit, hlength⟩ := split_at hgate
      have h : (run (Registry.builtin limit) ctx
          (pipeline.take gate ++ approve :: pipeline.drop (gate + 1)) (.ofList items)).Withholds
            _ _ :=
        runFrom_withholds_of_gate hmode hname hpull (Stream.within_ofList items)
      rwa [← hsplit, hlength, Nat.zero_add] at h
    refine iff_of_true (hwithholds.consent_before hrun hx) fun m stage hm _ hstage => hpull stage ?_
    have hdrop : (pipeline.drop (gate + 1))[m - (gate + 1)]? = some stage := by
      rw [List.getElem?_drop, Nat.add_sub_cancel' hm]
      exact hstage
    exact List.mem_of_getElem? hdrop
  · obtain ⟨stop, hmem, hstop⟩ : ∃ stop ∈ pipeline.drop (gate + 1), stop.KeepsNothing := by
      simpa using hpull
    obtain ⟨k, hk⟩ := List.getElem?_of_mem hmem
    rw [List.getElem?_drop] at hk
    have hbeyond : ∀ y ∈ (run (Registry.builtin limit) ctx pipeline (.ofList items)).exchanges
        script, Beyond (gate + 1 + k) y.stage y.effect := by
      intro y hy
      obtain ⟨hsplit, hlength⟩ := split_at hk
      have h : (run (Registry.builtin limit) ctx
          (pipeline.take (gate + 1 + k) ++ stop :: pipeline.drop (gate + 1 + k + 1))
          (.ofList items)).Within _ :=
        runFrom_beyond_of_keepsNothing hmode hstop
      rw [← hsplit, hlength, Nat.zero_add] at h
      exact h.of_mem_exchanges hy
    refine iff_of_false ?_ fun hnone => ?_
    · rintro ⟨y, hy, hconsent⟩
      obtain ⟨hstage, question, hquestion⟩ := Exchange.stage_of_isConsent hconsent
      rcases hbeyond y (by simp [hrun, hy]) with ⟨i, hi⟩ | hlt
      · simp [hquestion] at hi
      · omega
    · rcases hbeyond x (by simp [hrun]) with ⟨i, hi⟩ | hlt
      · simp [hi, Effect.Awaits, Effect.actsOutside] at hx
      · exact hnone (gate + 1 + k) stop (by omega) hlt hk hstop

/-- Through a `head` that keeps one item the question is answered with yes before the subprocess
behind it starts. -/
theorem consent_before_spawn :
    let ctx : Context := ⟨.human, [], true⟩
    let pipeline : Pipeline := [⟨"approve", Args.empty⟩, ⟨"head", [("_", .many ["1"])]⟩,
      ⟨"exec", [("_", .many ["date"])]⟩]
    let started : Exchange := ⟨2, .spawn "date" none, .finished [] [] 0⟩
    ∃ before, (run (Registry.builtin none) ctx pipeline (.ofList [.value (.int 1)])).exchanges
        ⟨[], [], [true]⟩ = before ++ [started] ∧ ∃ y ∈ before, y.isConsent 0 = true := by
  intro ctx pipeline started
  let before : List Exchange := [⟨0, .start ⟨"approve", Args.empty⟩, ()⟩,
    ⟨1, .start ⟨"head", [("_", .many ["1"])]⟩, ()⟩,
    ⟨2, .start ⟨"exec", [("_", .many ["date"])]⟩, ()⟩,
    ⟨0, .confirm "Approve? (1 item(s))", true⟩]
  have hgate : pipeline[0]? = some ⟨"approve", Args.empty⟩ := rfl
  have hrun : (run (Registry.builtin none) ctx pipeline (.ofList [.value (.int 1)])).exchanges
      ⟨[], [], [true]⟩ = before ++ [started] := by rfl
  refine ⟨before, hrun, ?_⟩
  refine (consent_before_iff none ctx rfl pipeline _ _ hgate rfl hrun ⟨by decide, rfl⟩).mpr ?_
  rintro m stage h0 h1 hstage ⟨-, hcount⟩
  have hm : m = 1 := Nat.le_antisymm (Nat.le_of_lt_succ h1) h0
  subst hm
  obtain rfl := Option.some.inj hstage
  have hone : Head.count [("_", .many ["1"])] = .ok 1 := rfl
  simp [hone] at hcount

/-- Behind a gate and a `head` that keeps nothing a subprocess starts although nobody is asked. -/
theorem spawn_without_consent :
    let ctx : Context := ⟨.human, [], true⟩
    let pipeline : Pipeline := [⟨"approve", Args.empty⟩, ⟨"head", [("_", .many ["0"])]⟩,
      ⟨"exec", [("_", .many ["date"])]⟩]
    let started : Exchange := ⟨2, .spawn "date" none, .finished [] [] 0⟩
    ∃ before, (run (Registry.builtin none) ctx pipeline (.ofList [.value (.int 1)])).exchanges
        ⟨[], [], [false]⟩ = before ++ [started] ∧ started.effect.Awaits 0 started.stage ∧
      ∀ y ∈ before, y.isConsent 0 = false := by
  intro ctx pipeline started
  refine ⟨[⟨0, .start ⟨"approve", Args.empty⟩, ()⟩, ⟨1, .start ⟨"head", [("_", .many ["0"])]⟩, ()⟩,
    ⟨2, .start ⟨"exec", [("_", .many ["date"])]⟩, ()⟩], by rfl, ⟨by decide, rfl⟩, ?_⟩
  simp [Exchange.isConsent]

end Pipeline

end Sluice
