import Sluice.Stream.Basic

/-!
Programs and streams as trees. A program run against a script leaves a log; the exchanges of a run
are its log with the answers kept. Beside the laws of sequencing there is one reading of a tree that
holds along all of its paths, whatever the outside world answers: which effects it can have at all.
-/

namespace Sluice

/-- One effect of a run, the stage that had it, and what the outside world answered. -/
structure Exchange where
  stage : Nat
  effect : Effect
  answer : effect.Answer

def Exchange.logged (x : Exchange) : Logged :=
  ⟨x.stage, x.effect⟩

def Effect.announced? : Effect → Option Invocation
  | .start stage => some stage
  | _ => none

namespace Program

variable {α β γ : Type}

@[simp] theorem bind_pure (a : α) (f : α → Program β) : (Program.pure a).bind f = f a := rfl

@[simp] theorem bind_fail (e : Failure) (f : α → Program β) :
    (Program.fail e).bind f = .fail e := rfl

@[simp] theorem bind_perform (stage : Nat) (e : Effect) (next : e.Answer → Program α)
    (f : α → Program β) :
    (Program.perform stage e next).bind f = .perform stage e fun a => (next a).bind f := rfl

@[simp] theorem monad_bind (p : Program α) (f : α → Program β) : p >>= f = p.bind f := rfl

@[simp] theorem monad_pure (a : α) : (pure a : Program α) = .pure a := rfl

theorem bind_assoc (p : Program α) (f : α → Program β) (g : β → Program γ) :
    (p.bind f).bind g = p.bind fun a => (f a).bind g := by
  induction p with
  | pure a => rfl
  | fail e => rfl
  | perform stage e next ih => simp [ih]

theorem bind_pure_self (p : Program α) : (p.bind fun a => .pure a) = p := by
  induction p with
  | pure a => rfl
  | fail e => rfl
  | perform stage e next ih => simp only [bind_perform, ih]

def exchanges : Program α → Script → List Exchange
  | .pure _, _ | .fail _, _ => []
  | .perform stage e next, s =>
    let (a, rest) := s.answer e
    ⟨stage, e, a⟩ :: (next a).exchanges rest

/-- The log of a run is what its exchanges are without the answers. -/
theorem exchanges_logged (p : Program α) (s : Script) :
    (p.exchanges s).map Exchange.logged = (p.run s).log := by
  induction p generalizing s with
  | pure a => rfl
  | fail e => rfl
  | perform stage e next ih =>
    simp only [exchanges, run, List.map_cons]
    rw [ih]
    rfl

/-- A sequence runs its second part with what the first part has left of the script, unless the
first part fails. -/
theorem run_bind (p : Program α) (f : α → Program β) (s : Script) :
    (p.bind f).run s =
      match (p.run s).result with
      | .ok a =>
        let r := (f a).run (p.run s).script
        ⟨r.result, r.script, (p.run s).log ++ r.log⟩
      | .error e => ⟨.error e, (p.run s).script, (p.run s).log⟩ := by
  induction p generalizing s with
  | pure a => simp [run]
  | fail e => simp [run]
  | perform stage e next ih =>
    simp only [bind_perform, run]
    rw [ih]
    cases ((next (s.answer e).1).run (s.answer e).2).result with
    | ok a => simp
    | error e => simp

/-- What a program comes to can be changed afterwards. -/
theorem run_map (p : Program α) (f : α → β) (script : Script) :
    (p.bind fun a => .pure (f a)).run script =
      ⟨(p.run script).result.map f, (p.run script).script, (p.run script).log⟩ := by
  rw [run_bind]
  cases (p.run script).result with
  | ok a => simp only [run, List.append_nil, Except.map]
  | error e => rfl

/-- A sequence that comes to a result has gone through a result of its first part. -/
theorem result_bind_ok {p : Program α} {f : α → Program β} {s : Script} {b : β}
    (h : ((p.bind f).run s).result = .ok b) :
    ∃ a, (p.run s).result = .ok a ∧ ((f a).run (p.run s).script).result = .ok b := by
  rw [run_bind] at h
  cases ha : (p.run s).result with
  | ok a =>
    rw [ha] at h
    exact ⟨a, rfl, h⟩
  | error e =>
    rw [ha] at h
    cases h

theorem result_ofExcept (r : Except Failure α) (s : Script) : ((ofExcept r).run s).result = r := by
  cases r <;> rfl

/-- An attempt does not fail: the failure of its program is its result. -/
theorem result_attempt (p : Program α) (s : Script) :
    (p.attempt.run s).result = .ok (p.run s).result := by
  induction p generalizing s with
  | pure a => rfl
  | fail f => rfl
  | perform stage e next ih => exact ih _ _

/-- Every effect that a program can have, whatever it is answered, is of an allowed kind. -/
def Within (ok : Nat → Effect → Prop) : Program α → Prop
  | .pure _ | .fail _ => True
  | .perform stage e next => ok stage e ∧ ∀ a, (next a).Within ok

variable {ok : Nat → Effect → Prop}

theorem Within.mono {ok' : Nat → Effect → Prop} (himp : ∀ stage e, ok stage e → ok' stage e)
    {p : Program α} (h : p.Within ok) : p.Within ok' := by
  induction p with
  | pure a => trivial
  | fail e => trivial
  | perform stage e next ih => exact ⟨himp stage e h.1, fun a => ih a (h.2 a)⟩

theorem Within.bind {p : Program α} {f : α → Program β} (hp : p.Within ok)
    (hf : ∀ a, (f a).Within ok) : (p.bind f).Within ok := by
  induction p with
  | pure a => exact hf a
  | fail e => trivial
  | perform stage e next ih => exact ⟨hp.1, fun a => ih a (hp.2 a)⟩

theorem within_ofExcept (r : Except Failure α) : (ofExcept r).Within ok := by
  cases r <;> trivial

theorem Within.attempt {p : Program α} (h : p.Within ok) : p.attempt.Within ok := by
  induction p with
  | pure a => trivial
  | fail e => trivial
  | perform stage e next ih => exact ⟨h.1, fun a => ih a (h.2 a)⟩

/-- Every result that a program can have, whatever its effects are answered, has a property. -/
def Ensures (post : α → Prop) : Program α → Prop
  | .pure a => post a
  | .fail _ => True
  | .perform _ _ next => ∀ a, (next a).Ensures post

theorem Ensures.mono {post post' : α → Prop} (himp : ∀ a, post a → post' a) {p : Program α}
    (h : p.Ensures post) : p.Ensures post' := by
  induction p with
  | pure a => exact himp a h
  | fail e => trivial
  | perform stage e next ih => exact fun a => ih a (h a)

theorem Ensures.bind {post : α → Prop} {post' : β → Prop} {p : Program α} {f : α → Program β}
    (hp : p.Ensures post) (hf : ∀ a, post a → (f a).Ensures post') : (p.bind f).Ensures post' := by
  induction p with
  | pure a => exact hf a hp
  | fail e => trivial
  | perform stage e next ih => exact fun a => ih a (hp a)

theorem ensures_true (p : Program α) : p.Ensures fun _ => True := by
  induction p with
  | pure a => trivial
  | fail e => trivial
  | perform stage e next ih => exact ih

theorem ensures_ofExcept {post : α → Prop} {r : Except Failure α} (h : ∀ a, r = .ok a → post a) :
    (ofExcept r).Ensures post := by
  cases r with
  | ok a => exact h a rfl
  | error e => trivial

theorem Ensures.of_result {post : α → Prop} {p : Program α} (h : p.Ensures post) {s : Script}
    {a : α} (hrun : (p.run s).result = .ok a) : post a := by
  induction p generalizing s with
  | pure b =>
    cases hrun
    exact h
  | fail e => cases hrun
  | perform stage e next ih => exact ih _ (h _) hrun

/-- `Within.bind` where the second part is only known to stay within bounds on results that the
first part can have. -/
theorem Within.bind_of_ensures {post : α → Prop} {p : Program α} {f : α → Program β}
    (hp : p.Within ok) (hpost : p.Ensures post) (hf : ∀ a, post a → (f a).Within ok) :
    (p.bind f).Within ok := by
  induction p with
  | pure a => exact hf a hpost
  | fail e => trivial
  | perform stage e next ih => exact ⟨hp.1, fun a => ih a (hp.2 a) (hpost a)⟩

/-- What a program can do bounds what any of its runs does. -/
theorem Within.of_mem_exchanges {p : Program α} (h : p.Within ok) {s : Script} {x : Exchange}
    (hx : x ∈ p.exchanges s) : ok x.stage x.effect := by
  induction p generalizing s with
  | pure a => cases hx
  | fail e => cases hx
  | perform stage e next ih =>
    simp only [exchanges, List.mem_cons] at hx
    rcases hx with rfl | hx
    · exact h.1
    · exact ih _ (h.2 _) hx

theorem Within.of_mem_log {p : Program α} (h : p.Within ok) {s : Script} {e : Logged}
    (he : e ∈ (p.run s).log) : ok e.stage e.effect := by
  rw [← exchanges_logged] at he
  obtain ⟨x, hx, rfl⟩ := List.mem_map.mp he
  exact h.of_mem_exchanges hx

end Program

namespace Stream

@[simp] theorem collect_ofList (xs : List Item) : (ofList xs).collect = .pure xs := by
  induction xs with
  | nil => rfl
  | cons x xs ih =>
    change (collect (ofList xs)).bind _ = _
    rw [ih, Program.bind_pure]

/-- Pulling the stream of a program to its end runs the program. -/
@[simp] theorem collect_ofProgram (p : Program (List Item)) : (ofProgram p).collect = p := by
  induction p with
  | pure xs => exact collect_ofList xs
  | fail e => rfl
  | perform stage e next ih => simp only [ofProgram, collect, ih]

def Within (ok : Nat → Effect → Prop) : Stream → Prop
  | .done | .fail _ => True
  | .yield _ rest => rest.Within ok
  | .perform stage e next => ok stage e ∧ ∀ a, (next a).Within ok

variable {ok : Nat → Effect → Prop}

theorem Within.mono {ok' : Nat → Effect → Prop} (himp : ∀ stage e, ok stage e → ok' stage e)
    {s : Stream} (h : s.Within ok) : s.Within ok' := by
  induction s with
  | done => trivial
  | fail e => trivial
  | yield x rest ih => exact ih h
  | perform stage e next ih => exact ⟨himp stage e h.1, fun a => ih a (h.2 a)⟩

theorem Within.prepend {s : Stream} (h : s.Within ok) (xs : List Item) :
    (Stream.prepend xs s).Within ok := by
  induction xs with
  | nil => exact h
  | cons x xs ih => exact ih

theorem within_ofList (xs : List Item) : (ofList xs).Within ok :=
  Within.prepend (show Stream.done.Within ok from trivial) xs

theorem Within.collect {s : Stream} (h : s.Within ok) : s.collect.Within ok := by
  induction s with
  | done => trivial
  | fail e => trivial
  | yield x rest ih => exact (ih h).bind fun xs => trivial
  | perform stage e next ih => exact ⟨h.1, fun a => ih a (h.2 a)⟩

theorem within_ofProgram {p : Program (List Item)} (h : p.Within ok) :
    (ofProgram p).Within ok := by
  induction p with
  | pure xs => exact within_ofList xs
  | fail e => trivial
  | perform stage e next ih => exact ⟨h.1, fun a => ih a (h.2 a)⟩

theorem Within.expand {s : Stream} (h : s.Within ok) (f : Item → Except Failure (List Item)) :
    (s.expand f).Within ok := by
  induction s with
  | done => trivial
  | fail e => trivial
  | yield x rest ih =>
    simp only [Stream.expand]
    cases f x with
    | ok xs => exact (ih h).prepend xs
    | error e => trivial
  | perform stage e next ih => exact ⟨h.1, fun a => ih a (h.2 a)⟩

theorem Within.take {s : Stream} (h : s.Within ok) (n : Nat) : (s.take n).Within ok := by
  induction s generalizing n with
  | done => cases n <;> trivial
  | fail e => cases n <;> trivial
  | yield x rest ih =>
    cases n with
    | zero => trivial
    | succ n => exact ih h n
  | perform stage e next ih =>
    cases n with
    | zero => trivial
    | succ n => exact ⟨h.1, fun a => ih a (h.2 a) (n + 1)⟩

/-- Every item that a stream can yield, whatever its effects are answered, has a property. -/
def Yields (post : Item → Prop) : Stream → Prop
  | .done | .fail _ => True
  | .yield x rest => post x ∧ rest.Yields post
  | .perform _ _ next => ∀ a, (next a).Yields post

variable {post : Item → Prop}

theorem Yields.prepend {s : Stream} (h : s.Yields post) {xs : List Item}
    (hxs : ∀ x ∈ xs, post x) : (Stream.prepend xs s).Yields post := by
  induction xs with
  | nil => exact h
  | cons x xs ih =>
    rw [List.forall_mem_cons] at hxs
    exact ⟨hxs.1, ih hxs.2⟩

theorem yields_ofList {xs : List Item} (h : ∀ x ∈ xs, post x) : (ofList xs).Yields post :=
  Yields.prepend (show Stream.done.Yields post from trivial) h

theorem Yields.collect {s : Stream} (h : s.Yields post) :
    s.collect.Ensures fun xs => ∀ x ∈ xs, post x := by
  induction s with
  | done => exact List.forall_mem_nil _
  | fail e => trivial
  | yield x rest ih =>
    apply (ih h.2).bind
    intro xs hxs
    exact List.forall_mem_cons.mpr ⟨h.1, hxs⟩
  | perform stage e next ih => exact fun a => ih a (h a)

theorem yields_ofProgram {p : Program (List Item)} (h : p.Ensures fun xs => ∀ x ∈ xs, post x) :
    (ofProgram p).Yields post := by
  induction p with
  | pure xs => exact yields_ofList h
  | fail e => trivial
  | perform stage e next ih => exact fun a => ih a (h a)

theorem Yields.expand {s : Stream} (h : s.Yields post) {f : Item → Except Failure (List Item)}
    (hf : ∀ x xs, post x → f x = .ok xs → ∀ y ∈ xs, post y) : (s.expand f).Yields post := by
  induction s with
  | done => trivial
  | fail e => trivial
  | yield x rest ih =>
    rw [Stream.expand]
    cases hx : f x with
    | ok xs => exact (ih h.2).prepend (hf x xs h.1 hx)
    | error e => trivial
  | perform stage e next ih => exact fun a => ih a (h a)

theorem Yields.take {s : Stream} (h : s.Yields post) (n : Nat) : (s.take n).Yields post := by
  induction s generalizing n with
  | done => cases n <;> trivial
  | fail e => cases n <;> trivial
  | yield x rest ih =>
    cases n with
    | zero => trivial
    | succ n => exact ⟨h.1, ih h.2 n⟩
  | perform stage e next ih =>
    cases n with
    | zero => trivial
    | succ n => exact fun a => ih a (h a) (n + 1)

end Stream

end Sluice
