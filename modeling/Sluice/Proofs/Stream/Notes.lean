import Sluice.Command.Probe
import Sluice.Proofs.Stream.Expansion

/-!
Programs and streams whose only effects are notes. Nothing answers a note, so such a program comes to
the same on every script and leaves the script as it was. Such a stream has the items and the end of
the stream without the notes, and whatever is made of it has those of what is made of that.
-/

namespace Sluice

namespace Program

variable {α β : Type}

/-- On every script a program comes to a result, leaves a log and takes nothing of the script. -/
def Leaves (p : Program α) (log : List Logged) (a : α) : Prop :=
  ∀ script, p.run script = ⟨.ok a, script, log⟩

theorem Leaves.bind {p : Program α} {f : α → Program β} {log log' : List Logged} {a : α} {b : β}
    (hp : p.Leaves log a) (hf : (f a).Leaves log' b) : (p.bind f).Leaves (log ++ log') b := by
  intro script
  rw [run_bind, hp script]
  simp only [hf script]

theorem leaves_pure (a : α) : (Program.pure a).Leaves [] a := fun _ => rfl

/-- A result that does not need the script is the result on any script. -/
theorem Leaves.result_eq {p : Program α} {log : List Logged} {a b : α} (hp : p.Leaves log a)
    {script : Script} (h : (p.run script).result = .ok b) : a = b := by
  rw [hp script] at h
  exact Except.ok.inj h

/-- A program that can only leave notes, and on some script comes to a result, does so on every
script. -/
theorem Within.leaves {ok : Nat → Effect → Prop} {p : Program α} (h : p.Within ok)
    (hok : ∀ stage e, ok stage e → ∃ line, e = .note line) {script : Script} {a : α}
    (hran : (p.run script).result = .ok a) :
    ∃ log, p.Leaves log a ∧ ∀ e ∈ log, ok e.stage e.effect := by
  induction p with
  | pure b =>
    cases hran
    exact ⟨[], leaves_pure _, List.forall_mem_nil _⟩
  | fail e => cases hran
  | perform stage e next ih =>
    obtain ⟨line, rfl⟩ := hok stage e h.1
    obtain ⟨log, hlog, hnotes⟩ := ih () (h.2 ()) hran
    refine ⟨⟨stage, .note line⟩ :: log, fun script => ?_, List.forall_mem_cons.mpr ⟨h.1, hnotes⟩⟩
    simp only [run, Script.answer, hlog script]

end Program

namespace Stream

/-- A stream is another one but for notes on the way, and has no other effect. -/
inductive StripsTo : Stream → Stream → Prop where
  | done : StripsTo .done .done
  | fail (f : Failure) : StripsTo (.fail f) (.fail f)
  | yield (x : Item) {s t : Stream} (h : StripsTo s t) : StripsTo (.yield x s) (.yield x t)
  | note (stage : Nat) (line : String) {next : Unit → Stream} {t : Stream}
    (h : StripsTo (next ()) t) : StripsTo (.perform stage (.note line) next) t

variable {s t u v : Stream}

theorem StripsTo.prepend (h : s.StripsTo t) (xs : List Item) :
    (Stream.prepend xs s).StripsTo (Stream.prepend xs t) := by
  induction xs with
  | nil => exact h
  | cons x xs ih => exact .yield x ih

theorem stripsTo_ofList (xs : List Item) : (ofList xs).StripsTo (ofList xs) :=
  StripsTo.prepend .done xs

theorem StripsTo.expand (h : s.StripsTo t) (f : Item → Except Failure (List Item)) :
    (s.expand f).StripsTo (t.expand f) := by
  induction h with
  | done => exact .done
  | fail e => exact .fail e
  | yield x _ ih =>
    rw [Stream.expand, Stream.expand]
    cases f x with
    | ok xs => exact ih.prepend xs
    | error e => exact .fail e
  | note stage line _ ih => exact .note stage line ih

theorem StripsTo.take (h : s.StripsTo t) (n : Nat) : (s.take n).StripsTo (t.take n) := by
  induction h generalizing n with
  | done => cases n <;> exact .done
  | fail e =>
    cases n with
    | zero => exact .done
    | succ n => exact .fail e
  | yield x _ ih =>
    cases n with
    | zero => exact .done
    | succ n => exact .yield x (ih n)
  | @note stage line next t _ ih =>
    cases n with
    | zero =>
      rw [Stream.take, Stream.take]
      exact .done
    | succ n => exact .note stage line (ih (n + 1))

/-- What the notes of a tap are stripped to is what the notes of its source are. -/
theorem StripsTo.tap (h : s.StripsTo t) (stage : Nat) (name : String) :
    (Probe.tap stage name s).StripsTo t := by
  induction h with
  | done => exact .note _ _ .done
  | fail e => exact .fail e
  | yield x _ ih => exact .note _ _ (.yield x ih)
  | note stage line _ ih => exact .note stage line ih

theorem StripsTo.failAfter (h : s.StripsTo t) (f : Failure) (n : Nat) :
    (Probe.failAfter f n s).StripsTo (Probe.failAfter f n t) := by
  induction h generalizing n with
  | done => cases n <;> exact .fail f
  | fail e => cases n <;> exact .fail e
  | yield x _ ih =>
    cases n with
    | zero => exact .fail f
    | succ n => exact .yield x (ih n)
  | note stage line _ ih => cases n <;> exact .note stage line (ih _)

theorem stripsTo_produce (stage : Nat) (name : String) (xs : List Item) :
    (Probe.produce stage name xs).StripsTo (ofList xs) := by
  induction xs with
  | nil => exact .done
  | cons x xs ih => exact .note _ _ (.yield x ih)

/-- What stands behind a program does not depend on what it comes to. -/
theorem after_bind (s : Stream) (p : Program (List Item)) (f : List Item → List Item) :
    Probe.after s (p.bind fun xs => .pure (f xs)) = Probe.after s p := by
  induction p with
  | pure xs => rfl
  | fail e => rfl
  | perform stage e next ih => simp only [Program.bind_perform, Probe.after, ih]

theorem StripsTo.after (h : s.StripsTo t) (hu : u.StripsTo v) :
    (Probe.after u s.collect).StripsTo (Probe.after v t.collect) := by
  induction h with
  | done => exact hu
  | fail e => exact .fail e
  | yield x _ ih =>
    rw [collect, collect, after_bind, after_bind]
    exact ih
  | note stage line _ ih => exact .note stage line ih

/-- Notes do not matter to what a stream comes to. -/
theorem StripsTo.run (h : s.StripsTo t) (script : Script) :
    (s.collect.run script).result = (t.collect.run script).result ∧
      (s.collect.run script).script = script := by
  induction h with
  | done => exact ⟨rfl, rfl⟩
  | fail e => exact ⟨rfl, rfl⟩
  | yield x _ ih =>
    rw [collect, collect, Program.run_map, Program.run_map]
    exact ⟨congrArg (Except.map (x :: ·)) ih.1, ih.2⟩
  | note stage line _ ih => exact ih

/-- If all items of a stream can be pulled, then it strips to the list of these. -/
theorem StripsTo.eq_ofList (h : s.StripsTo t) {script : Script} {xs : List Item}
    (hran : (s.collect.run script).result = .ok xs) : t = .ofList xs := by
  induction h generalizing xs with
  | done =>
    cases hran
    rfl
  | fail e => cases hran
  | yield x _ ih =>
    obtain ⟨ys, hrest, hyield⟩ := Program.result_bind_ok hran
    cases hyield
    rw [ih hrest]
    rfl
  | note stage line _ ih => exact ih hran

end Stream

end Sluice
