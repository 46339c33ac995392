import Sluice.Proofs.Stream.Laws

/-!
Effects in the order of the stages that have them. A tree is ordered between two indices if along
each of its paths the effects that are seen outside belong to ever later stages between the two, and
if an answer that counts as a failure leaves nothing to do but to fail. The order survives every way
in which streams are built from streams, so it does not matter how a stage pulls its source.
-/

namespace Sluice

/-- Whether an effect is seen outside the run. Announcements and notes are not. -/
def Effect.isExternal : Effect → Bool
  | .spawn _ _ | .post _ | .confirm _ | .print _ => true
  | .start _ | .note _ => false

def Exchange.isExternal (x : Exchange) : Bool :=
  x.effect.isExternal

/-- The first stage that may still act after an effect of a stage, when `lo` was the first before. -/
def Effect.floor (e : Effect) (lo stage : Nat) : Nat :=
  if e.isExternal then stage + 1 else lo

theorem Effect.floor_mono (e : Effect) {lo lo' : Nat} (h : lo' ≤ lo) (stage : Nat) :
    e.floor lo' stage ≤ e.floor lo stage := by
  unfold floor
  split
  · exact Nat.le_refl _
  · exact h

theorem Effect.floor_le {e : Effect} {lo mid stage : Nat} (hlo : lo ≤ mid)
    (h : e.isExternal = true → stage < mid) : e.floor lo stage ≤ mid := by
  unfold floor
  split
  · rename_i hexternal
    exact h hexternal
  · exact hlo

variable {fails : Exchange → Failure → Prop} {lo hi : Nat}

namespace Program

variable {α β : Type}

/-- From a stage on and before another, ever later stages act, and a failed exchange is the last one. -/
def Ordered (fails : Exchange → Failure → Prop) (lo hi : Nat) : Program α → Prop
  | .pure _ | .fail _ => True
  | .perform stage e next =>
    (e.isExternal = true → lo ≤ stage ∧ stage < hi) ∧
      ∀ a, (next a).Ordered fails (e.floor lo stage) hi ∧
        ∀ f, fails ⟨stage, e, a⟩ f → next a = .fail f

theorem Ordered.mono {p : Program α} (h : p.Ordered fails lo hi) {lo' hi' : Nat} (hlo : lo' ≤ lo)
    (hhi : hi ≤ hi') : p.Ordered fails lo' hi' := by
  induction p generalizing lo lo' with
  | pure a => trivial
  | fail e => trivial
  | perform stage e next ih =>
    refine ⟨fun hexternal => ?_, fun a => ⟨?_, (h.2 a).2⟩⟩
    · obtain ⟨hfrom, hbefore⟩ := h.1 hexternal
      exact ⟨Nat.le_trans hlo hfrom, Nat.lt_of_lt_of_le hbefore hhi⟩
    · exact ih a (h.2 a).1 (e.floor_mono hlo stage)

/-- What comes second acts at later stages. -/
theorem Ordered.bind {mid : Nat} {p : Program α} {f : α → Program β} (hlo : lo ≤ mid)
    (hhi : mid ≤ hi) (hp : p.Ordered fails lo mid) (hf : ∀ a, (f a).Ordered fails mid hi) :
    (p.bind f).Ordered fails lo hi := by
  induction p generalizing lo with
  | pure a => exact (hf a).mono hlo (Nat.le_refl hi)
  | fail e => trivial
  | perform stage e next ih =>
    refine ⟨fun hexternal => ?_, fun a => ⟨?_, fun g hg => ?_⟩⟩
    · obtain ⟨hfrom, hbefore⟩ := hp.1 hexternal
      exact ⟨hfrom, Nat.lt_of_lt_of_le hbefore hhi⟩
    · exact ih a (Effect.floor_le hlo fun hexternal => (hp.1 hexternal).2) (hp.2 a).1
    · exact congrArg (Program.bind · f) ((hp.2 a).2 g hg)

/-- What comes second does nothing. -/
theorem Ordered.map {p : Program α} (hp : p.Ordered fails lo hi) (f : α → β) :
    (p.bind fun a => .pure (f a)).Ordered fails lo hi := by
  induction p generalizing lo with
  | pure a => trivial
  | fail e => trivial
  | perform stage e next ih =>
    refine ⟨hp.1, fun a => ⟨ih a (hp.2 a).1, fun g hg => ?_⟩⟩
    exact congrArg (Program.bind · fun a => .pure (f a)) ((hp.2 a).2 g hg)

theorem ordered_ofExcept (r : Except Failure α) : (ofExcept r).Ordered fails lo hi := by
  cases r <;> trivial

/-- An effect of a stage that settles how its program ends. -/
theorem ordered_effect {stage : Nat} {e : Effect} {next : e.Answer → Except Failure α}
    (hlo : lo ≤ stage) (hhi : stage < hi)
    (h : ∀ a f, fails ⟨stage, e, a⟩ f → next a = .error f) :
    (Program.perform stage e fun a => ofExcept (next a)).Ordered fails lo hi := by
  refine ⟨fun _ => ⟨hlo, hhi⟩, fun a => ⟨ordered_ofExcept _, fun f hf => ?_⟩⟩
  exact congrArg ofExcept (h a f hf)

theorem exchanges_perform (stage : Nat) (e : Effect) (next : e.Answer → Program α) (s : Script) :
    (Program.perform stage e next).exchanges s =
      ⟨stage, e, (s.answer e).1⟩ :: (next (s.answer e).1).exchanges (s.answer e).2 := rfl

theorem result_perform (stage : Nat) (e : Effect) (next : e.Answer → Program α) (s : Script) :
    ((Program.perform stage e next).run s).result =
      ((next (s.answer e).1).run (s.answer e).2).result := rfl

/-- In a run, the stages of the effects that are seen outside ascend. -/
theorem Ordered.ascending {p : Program α} (h : p.Ordered fails lo hi) (s : Script) :
    ((p.exchanges s).filter Exchange.isExternal).Pairwise (fun x y => x.stage < y.stage) ∧
      ∀ x ∈ p.exchanges s, x.isExternal = true → lo ≤ x.stage ∧ x.stage < hi := by
  induction p generalizing lo s with
  | pure a => exact ⟨.nil, List.forall_mem_nil _⟩
  | fail e => exact ⟨.nil, List.forall_mem_nil _⟩
  | perform stage e next ih =>
    obtain ⟨hpairwise, hbounds⟩ := ih _ (h.2 (s.answer e).1).1 (s.answer e).2
    rw [exchanges_perform, List.forall_mem_cons]
    let x : Exchange := ⟨stage, e, (s.answer e).1⟩
    by_cases hexternal : e.isExternal = true
    · have hstage := h.1 hexternal
      have hout : x.isExternal = true := hexternal
      rw [Effect.floor, if_pos hexternal] at hbounds
      rw [List.filter_cons_of_pos hout, List.pairwise_cons]
      refine ⟨⟨fun x hx => ?_, hpairwise⟩, fun _ => hstage, fun x hx hout => ?_⟩
      · obtain ⟨hmem, hout⟩ := List.mem_filter.mp hx
        exact (hbounds x hmem hout).1
      · obtain ⟨hfrom, hbefore⟩ := hbounds x hx hout
        exact ⟨by omega, hbefore⟩
    · have hin : ¬ x.isExternal = true := hexternal
      rw [Effect.floor, if_neg hexternal] at hbounds
      rw [List.filter_cons_of_neg hin]
      exact ⟨hpairwise, fun h => absurd h hexternal, hbounds⟩

/-- In a run, nothing happens after a failed exchange, and the run fails with what it failed with. -/
theorem Ordered.stops {p : Program α} (h : p.Ordered fails lo hi) {s : Script} {x : Exchange}
    (hx : x ∈ p.exchanges s) {f : Failure} (hf : fails x f) :
    (p.run s).result = .error f ∧ ∃ before, p.exchanges s = before ++ [x] := by
  induction p generalizing lo s with
  | pure a => cases hx
  | fail e => cases hx
  | perform stage e next ih =>
    obtain ⟨hlater, hstop⟩ := h.2 (s.answer e).1
    rw [exchanges_perform, List.mem_cons] at hx
    rw [exchanges_perform, result_perform]
    rcases hx with rfl | hx
    · rw [hstop f hf]
      exact ⟨rfl, [], rfl⟩
    · obtain ⟨hresult, before, hbefore⟩ := ih _ hlater hx
      exact ⟨hresult, _ :: before, congrArg _ hbefore⟩

end Program

namespace Stream

def Ordered (fails : Exchange → Failure → Prop) (lo hi : Nat) : Stream → Prop
  | .done | .fail _ => True
  | .yield _ rest => rest.Ordered fails lo hi
  | .perform stage e next =>
    (e.isExternal = true → lo ≤ stage ∧ stage < hi) ∧
      ∀ a, (next a).Ordered fails (e.floor lo stage) hi ∧
        ∀ f, fails ⟨stage, e, a⟩ f → next a = .fail f

theorem Ordered.mono {s : Stream} (h : s.Ordered fails lo hi) {hi' : Nat} (hhi : hi ≤ hi') :
    s.Ordered fails lo hi' := by
  induction s generalizing lo with
  | done => trivial
  | fail e => trivial
  | yield x rest ih => exact ih h
  | perform stage e next ih =>
    refine ⟨fun hexternal => ?_, fun a => ⟨ih a (h.2 a).1, (h.2 a).2⟩⟩
    obtain ⟨hfrom, hbefore⟩ := h.1 hexternal
    exact ⟨hfrom, Nat.lt_of_lt_of_le hbefore hhi⟩

theorem Ordered.prepend {s : Stream} (h : s.Ordered fails lo hi) (xs : List Item) :
    (Stream.prepend xs s).Ordered fails lo hi := by
  induction xs with
  | nil => exact h
  | cons x xs ih => exact ih

theorem ordered_ofList (xs : List Item) : (ofList xs).Ordered fails lo hi :=
  Ordered.prepend (show Stream.done.Ordered fails lo hi from trivial) xs

theorem Ordered.collect {s : Stream} (h : s.Ordered fails lo hi) :
    s.collect.Ordered fails lo hi := by
  induction s generalizing lo with
  | done => trivial
  | fail e => trivial
  | yield x rest ih => exact (ih h).map fun xs => x :: xs
  | perform stage e next ih =>
    exact ⟨h.1, fun a => ⟨ih a (h.2 a).1, fun f hf => congrArg Stream.collect ((h.2 a).2 f hf)⟩⟩

theorem ordered_ofProgram {p : Program (List Item)} (h : p.Ordered fails lo hi) :
    (ofProgram p).Ordered fails lo hi := by
  induction p generalizing lo with
  | pure xs => exact ordered_ofList xs
  | fail e => trivial
  | perform stage e next ih =>
    exact ⟨h.1, fun a => ⟨ih a (h.2 a).1, fun f hf => congrArg ofProgram ((h.2 a).2 f hf)⟩⟩

theorem Ordered.expand {s : Stream} (h : s.Ordered fails lo hi)
    (f : Item → Except Failure (List Item)) : (s.expand f).Ordered fails lo hi := by
  induction s generalizing lo with
  | done => trivial
  | fail e => trivial
  | yield x rest ih =>
    rw [Stream.expand]
    cases f x with
    | ok xs => exact (ih h).prepend xs
    | error e => trivial
  | perform stage e next ih =>
    refine ⟨h.1, fun a => ⟨ih a (h.2 a).1, fun g hg => ?_⟩⟩
    exact congrArg (Stream.expand f) ((h.2 a).2 g hg)

theorem Ordered.take {s : Stream} (h : s.Ordered fails lo hi) (n : Nat) :
    (s.take n).Ordered fails lo hi := by
  induction s generalizing lo n with
  | done => cases n <;> trivial
  | fail e => cases n <;> trivial
  | yield x rest ih =>
    cases n with
    | zero => trivial
    | succ n => exact ih h n
  | perform stage e next ih =>
    cases n with
    | zero => trivial
    | succ n =>
      refine ⟨h.1, fun a => ⟨ih a (h.2 a).1 (n + 1), fun g hg => ?_⟩⟩
      exact congrArg (Stream.take (n + 1)) ((h.2 a).2 g hg)

end Stream

end Sluice
