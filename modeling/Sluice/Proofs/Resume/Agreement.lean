import Sluice.Proofs.Approval.Recognition
import Sluice.Proofs.Json.Reordering
import Sluice.Proofs.Resume.Reopening
import Sluice.Proofs.Stream.Laws

/-!
Two runs side by side. Items agree if they are equal or finite JSON values that differ in the order of
members only; programs and streams agree if they have the same effects, go on in agreement after each
answer, and end or fail alike. Agreement passes through everything that is done with streams, and the
runs of programs that agree leave the same behind.
-/

namespace Sluice

/-- The same item but for the order of members in finite values. -/
inductive Item.Agree : Item → Item → Prop where
  | refl (x : Item) : Agree x x
  | value {a b : Json} (h : a.Alike b) : Agree (.value a) (.value b)
  | request {xs ys : List Item} (h : List.Forall₂ Agree xs ys) (prompt : String) :
    Agree (.request xs prompt) (.request ys prompt)

abbrev Items.Agree : List Item → List Item → Prop :=
  List.Forall₂ Item.Agree

theorem Items.Agree.refl (xs : List Item) : Items.Agree xs xs :=
  List.forall₂_same.mpr fun x _ => .refl x

structure Approval.Agree (a b : Approval) : Prop where
  items : Items.Agree a.items b.items
  prompt : a.prompt = b.prompt

structure Outcome.Agree (o o' : Outcome) : Prop where
  items : Items.Agree o.items o'.items
  rendered : o.rendered = o'.rendered
  halted : o.halted = o'.halted
  haltedAt : o.haltedAt = o'.haltedAt

/-- Results that are both there and related, or the same failure. -/
inductive Agreed {α β : Type} (rel : α → β → Prop) :
    Except Failure α → Except Failure β → Prop where
  | ok {a : α} {b : β} (h : rel a b) : Agreed rel (.ok a) (.ok b)
  | error (f : Failure) : Agreed rel (.error f) (.error f)

/-- The same effect of the same stage. A stage may be announced with its arguments in another
order. -/
def Logged.Agree (a b : Logged) : Prop :=
  a.stage = b.stage ∧ (a.effect = b.effect ∨
    ∃ s t : Invocation, a.effect = .start s ∧ b.effect = .start t ∧ s.Same t)

structure Ran.Agree {α β : Type} (rel : α → β → Prop) (r : Ran α) (r' : Ran β) : Prop where
  result : Agreed rel r.result r'.result
  script : r.script = r'.script
  log : List.Forall₂ Logged.Agree r.log r'.log

namespace Program

/-- Programs that have the same effects and end alike, whatever they are answered. -/
inductive Agree {α β : Type} (rel : α → β → Prop) : Program α → Program β → Prop where
  | pure {a : α} {b : β} (h : rel a b) : Agree rel (.pure a) (.pure b)
  | fail (f : Failure) : Agree rel (.fail f) (.fail f)
  | perform (stage : Nat) (e : Effect) {next : e.Answer → Program α} {next' : e.Answer → Program β}
    (h : ∀ a, Agree rel (next a) (next' a)) :
    Agree rel (.perform stage e next) (.perform stage e next')
  | start (stage : Nat) {s t : Invocation} (hst : s.Same t) {next : Unit → Program α}
    {next' : Unit → Program β} (h : ∀ a, Agree rel (next a) (next' a)) :
    Agree rel (.perform stage (.start s) next) (.perform stage (.start t) next')

variable {α β γ δ : Type} {rel : α → β → Prop}

theorem agree_refl {rel : α → α → Prop} (hrel : ∀ a, rel a a) (p : Program α) : p.Agree rel p := by
  induction p with
  | pure a => exact .pure (hrel a)
  | fail f => exact .fail f
  | perform stage e next ih => exact .perform stage e ih

theorem Agree.bind {rel' : γ → δ → Prop} {p : Program α} {q : Program β} (h : p.Agree rel q)
    {f : α → Program γ} {g : β → Program δ} (hfg : ∀ a b, rel a b → (f a).Agree rel' (g b)) :
    (p.bind f).Agree rel' (q.bind g) := by
  induction h with
  | pure h => exact hfg _ _ h
  | fail f => exact .fail f
  | perform stage e _ ih => exact .perform stage e ih
  | start stage hst _ ih => exact .start stage hst ih

/-- Programs that agree leave the same behind. -/
theorem Agree.run {p : Program α} {q : Program β} (h : p.Agree rel q) (s : Script) :
    Ran.Agree rel (p.run s) (q.run s) := by
  induction h generalizing s with
  | pure h => exact ⟨.ok h, rfl, .nil⟩
  | fail f => exact ⟨.error f, rfl, .nil⟩
  | perform stage e _ ih =>
    obtain ⟨hresult, hscript, hlog⟩ := ih (s.answer e).1 (s.answer e).2
    exact ⟨hresult, hscript, .cons ⟨rfl, .inl rfl⟩ hlog⟩
  | start stage hst _ ih =>
    obtain ⟨hresult, hscript, hlog⟩ := ih () s
    exact ⟨hresult, hscript, .cons ⟨rfl, .inr ⟨_, _, rfl, rfl, hst⟩⟩ hlog⟩

end Program

namespace Stream

inductive Agree : Stream → Stream → Prop where
  | done : Agree .done .done
  | fail (f : Failure) : Agree (.fail f) (.fail f)
  | yield {x y : Item} (hxy : x.Agree y) {s t : Stream} (h : Agree s t) :
    Agree (.yield x s) (.yield y t)
  | perform (stage : Nat) (e : Effect) {next next' : e.Answer → Stream}
    (h : ∀ a, Agree (next a) (next' a)) : Agree (.perform stage e next) (.perform stage e next')
  | start (stage : Nat) {s t : Invocation} (hst : s.Same t) {next next' : Unit → Stream}
    (h : ∀ a, Agree (next a) (next' a)) :
    Agree (.perform stage (.start s) next) (.perform stage (.start t) next')

variable {s t : Stream}

theorem Agree.prepend (h : s.Agree t) {xs ys : List Item} (hxs : Items.Agree xs ys) :
    (Stream.prepend xs s).Agree (Stream.prepend ys t) := by
  induction hxs with
  | nil => exact h
  | cons hxy _ ih => exact .yield hxy ih

theorem agree_ofList {xs ys : List Item} (h : Items.Agree xs ys) : (ofList xs).Agree (ofList ys) :=
  Agree.prepend .done h

theorem Agree.collect (h : s.Agree t) : s.collect.Agree Items.Agree t.collect := by
  induction h with
  | done => exact .pure .nil
  | fail f => exact .fail f
  | yield hxy _ ih => exact ih.bind fun xs ys hxs => .pure (.cons hxy hxs)
  | perform stage e _ ih => exact .perform stage e ih
  | start stage hst _ ih => exact .start stage hst ih

theorem agree_ofProgram {p q : Program (List Item)} (h : p.Agree Items.Agree q) :
    (ofProgram p).Agree (ofProgram q) := by
  induction h with
  | pure h => exact agree_ofList h
  | fail f => exact .fail f
  | perform stage e _ ih => exact .perform stage e ih
  | start stage hst _ ih => exact .start stage hst ih

theorem Agree.expand (h : s.Agree t) {f : Item → Except Failure (List Item)}
    (hf : ∀ x y, Item.Agree x y → Agreed Items.Agree (f x) (f y)) :
    (s.expand f).Agree (t.expand f) := by
  induction h with
  | done => exact .done
  | fail f => exact .fail f
  | @yield x y hxy _ _ _ ih =>
    have hxs := hf x y hxy
    rw [Stream.expand, Stream.expand]
    generalize f x = r at hxs
    generalize f y = r' at hxs
    cases hxs with
    | ok hxs => exact ih.prepend hxs
    | error e => exact .fail e
  | perform stage e _ ih => exact .perform stage e ih
  | start stage hst _ ih => exact .start stage hst ih

theorem Agree.take (h : s.Agree t) (n : Nat) : (s.take n).Agree (t.take n) := by
  induction h generalizing n with
  | done => cases n <;> exact .done
  | fail f =>
    cases n with
    | zero => exact .done
    | succ n => exact .fail f
  | yield hxy _ ih =>
    cases n with
    | zero => exact .done
    | succ n => exact .yield hxy (ih n)
  | perform stage e _ ih =>
    cases n with
    | zero => exact .done
    | succ n => exact .perform stage e fun a => ih a (n + 1)
  | start stage hst _ ih =>
    cases n with
    | zero => exact .done
    | succ n => exact .start stage hst fun a => ih a (n + 1)

end Stream

namespace Item

theorem agree_values {xs ys : List Json} (h : List.Forall₂ Json.Alike xs ys) :
    Items.Agree (xs.map .value) (ys.map .value) := by
  rw [Items.Agree, List.forall₂_map_left_iff, List.forall₂_map_right_iff]
  exact h.imp fun _ _ => .value

/-- A value that is alike one that stands for a request stands for a request that agrees. -/
theorem approval?_alike {a b : Json} (h : a.Alike b) {p : Approval}
    (hp : (Item.value a).approval? = some p) :
    ∃ q, (Item.value b).approval? = some q ∧ p.Agree q := by
  obtain ⟨xs, prompt, rfl, htype, hitems, hprompt⟩ := approval?_value.mp hp
  obtain ⟨t, htype', ht⟩ := h.get? htype
  obtain ⟨v, hitems', hv⟩ := h.get? hitems
  obtain ⟨w, hprompt', hw⟩ := h.get? hprompt
  rw [ht.same.str] at htype'
  rw [hw.same.str] at hprompt'
  cases hv.paired with
  | equal =>
    exact ⟨_, approval?_value.mpr ⟨xs, prompt, rfl, htype', hitems', hprompt'⟩,
      Items.Agree.refl _, rfl⟩
  | @arrays _ ys hxs =>
    exact ⟨_, approval?_value.mpr ⟨ys, prompt, rfl, htype', hitems', hprompt'⟩,
      agree_values hxs, rfl⟩

/-- Items that agree stand for requests that agree, or neither stands for one. -/
theorem Agree.approval? {x y : Item} (h : x.Agree y) :
    Option.Rel Approval.Agree x.approval? y.approval? := by
  cases h with
  | refl x =>
    cases x.approval? with
    | none => exact .none
    | some a => exact .some ⟨Items.Agree.refl a.items, rfl⟩
  | request hxs prompt => exact .some ⟨hxs, rfl⟩
  | @value a b h =>
    cases ha : (Item.value a).approval? with
    | none =>
      cases hb : (Item.value b).approval? with
      | none => exact .none
      | some q =>
        obtain ⟨p, hp, -⟩ := approval?_alike h.symm hb
        rw [ha] at hp
        cases hp
    | some p =>
      obtain ⟨q, hq, hpq⟩ := approval?_alike h ha
      rw [hq]
      exact .some hpq

theorem Agree.soleApproval? {xs ys : List Item} (h : Items.Agree xs ys) :
    Option.Rel Approval.Agree (soleApproval? xs) (soleApproval? ys) := by
  cases h with
  | nil => exact .none
  | cons hxy hrest =>
    cases hrest with
    | nil => exact hxy.approval?
    | cons => exact .none

end Item

end Sluice
