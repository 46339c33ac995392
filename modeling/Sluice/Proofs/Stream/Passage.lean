import Sluice.Command.Probe
import Sluice.Proofs.Stream.Expansion

/-!
Items on their way through stages that hold nothing back: stages that note an item and hand it on, or
turn it into a list of items. What becomes of one item can be told without its neighbours, by
following it and all that it comes to as far as the last stage. The main statement is that pulling
does the same in the same order. The streams of the items stand one behind the other, and the end of
the source comes after all of them.
-/

namespace Sluice

namespace Stream

def append : Stream → Stream → Stream
  | .done, t => t
  | .fail e, _ => .fail e
  | .yield x rest, t => .yield x (rest.append t)
  | .perform stage e next, t => .perform stage e fun a => (next a).append t

def concat (ss : List Stream) : Stream :=
  ss.foldr append .done

theorem append_assoc (s t u : Stream) : (s.append t).append u = s.append (t.append u) := by
  induction s with
  | done => rfl
  | fail e => rfl
  | yield x rest ih => simp only [append, ih]
  | perform stage e next ih => simp only [append, ih]

theorem concat_cons (s : Stream) (ss : List Stream) : concat (s :: ss) = s.append (concat ss) := rfl

theorem concat_append (ss ts : List Stream) :
    concat (ss ++ ts) = (concat ss).append (concat ts) := by
  induction ss with
  | nil => rfl
  | cons s ss ih => rw [List.cons_append, concat_cons, ih, concat_cons, append_assoc]

variable {ok : Nat → Effect → Prop}

theorem Within.append {s t : Stream} (hs : s.Within ok) (ht : t.Within ok) :
    (s.append t).Within ok := by
  induction s with
  | done => exact ht
  | fail e => trivial
  | yield x rest ih => exact ih hs
  | perform stage e next ih => exact ⟨hs.1, fun a => ih a (hs.2 a)⟩

theorem within_concat {ss : List Stream} (h : ∀ s ∈ ss, s.Within ok) : (concat ss).Within ok := by
  induction ss with
  | nil => trivial
  | cons s ss ih =>
    rw [List.forall_mem_cons] at h
    exact h.1.append (ih h.2)

/-- Pulling two streams to the end pulls the first and then the second. -/
theorem collect_append (s t : Stream) :
    (s.append t).collect =
      s.collect.bind fun xs => t.collect.bind fun ys => .pure (xs ++ ys) := by
  induction s with
  | done =>
    simp only [append, collect, Program.bind_pure, List.nil_append]
    exact (Program.bind_pure_self _).symm
  | fail e => rfl
  | yield x rest ih =>
    simp only [append, collect, ih, Program.bind_assoc, Program.bind_pure, List.cons_append]
  | perform stage e next ih => simp only [append, collect, ih, Program.bind_perform]

end Stream

/-- What a stage that holds nothing back does with each item: it notes it, or turns it into a list of
items. -/
inductive Passing where
  | tap (name : String)
  | expand (f : Item → Except Failure (List Item))

namespace Passing

def apply (index : Nat) : Passing → Stream → Stream
  | .tap name, s => Probe.tap index name s
  | .expand f, s => s.expand f

/-- A stream behind some stages. The first of them is next to it and has the given index. -/
def flow (index : Nat) : List Passing → Stream → Stream
  | [], s => s
  | step :: rest, s => flow (index + 1) rest (step.apply index s)

/-- What becomes of one item. It is followed to the last stage, and where it comes to a list of items
each of these is followed to the last stage before the next one. -/
def visit (index : Nat) : List Passing → Item → Stream
  | [], x => .yield x .done
  | .tap name :: rest, x =>
    .perform index (.note s!"{name}:consume {Probe.shown x}") fun _ => visit (index + 1) rest x
  | .expand f :: rest, x =>
    match f x with
    | .ok ys => .concat (ys.map (visit (index + 1) rest))
    | .error e => .fail e

def ending (index : Nat) : List Passing → Stream
  | [] => .done
  | .tap name :: rest => .perform index (.note s!"{name}:end") fun _ => ending (index + 1) rest
  | .expand _ :: rest => ending (index + 1) rest

variable {index : Nat} {steps : List Passing}

theorem flow_fail (e : Failure) : flow index steps (.fail e) = .fail e := by
  induction steps generalizing index with
  | nil => rfl
  | cons step rest ih =>
    cases step with
    | tap name => exact ih
    | expand f => exact ih

theorem flow_perform (stage : Nat) (e : Effect) (next : e.Answer → Stream) :
    flow index steps (.perform stage e next) =
      .perform stage e fun a => flow index steps (next a) := by
  induction steps generalizing index next with
  | nil => rfl
  | cons step rest ih =>
    cases step with
    | tap name => exact ih _
    | expand f => exact ih _

theorem flow_done : flow index steps .done = ending index steps := by
  induction steps generalizing index with
  | nil => rfl
  | cons step rest ih =>
    cases step with
    | tap name =>
      change flow (index + 1) rest (.perform index _ fun _ => .done) = _
      rw [flow_perform, ih]
      rfl
    | expand f => exact ih

/-- If stages let each item through before the stream behind it, then they do so with a list of
items. -/
theorem flow_prepend_of_yield
    (h : ∀ x s, flow index steps (.yield x s) = (visit index steps x).append (flow index steps s))
    (xs : List Item) (s : Stream) :
    flow index steps (.prepend xs s) =
      (Stream.concat (xs.map (visit index steps))).append (flow index steps s) := by
  induction xs with
  | nil => rfl
  | cons x xs ih =>
    rw [Stream.prepend_cons, h, ih, List.map_cons, Stream.concat_cons, Stream.append_assoc]

/-- An item goes through all stages before anything is pulled of the stream behind it. -/
theorem flow_yield (x : Item) (s : Stream) :
    flow index steps (.yield x s) = (visit index steps x).append (flow index steps s) := by
  induction steps generalizing index x s with
  | nil => rfl
  | cons step rest ih =>
    cases step with
    | tap name =>
      change flow (index + 1) rest (.perform index _ fun _ => .yield x (Probe.tap index name s)) = _
      rw [flow_perform, ih]
      rfl
    | expand f =>
      change flow (index + 1) rest ((Stream.yield x s).expand f) = _
      rw [Stream.expand, visit]
      cases f x with
      | ok ys => exact flow_prepend_of_yield (fun y s => ih y s) ys _
      | error e => exact flow_fail e

/-- Items go through all stages one by one, and then comes the end. -/
theorem flow_ofList (xs : List Item) :
    flow index steps (.ofList xs) =
      (Stream.concat (xs.map (visit index steps))).append (ending index steps) := by
  rw [Stream.ofList, flow_prepend_of_yield flow_yield, flow_done]

/-- On the way of an item nothing happens but the notes of the stages that it passes. -/
theorem within_visit {ok : Nat → Effect → Prop}
    (hok : ∀ i name x, steps[i]? = some (.tap name) →
      ok (index + i) (.note s!"{name}:consume {Probe.shown x}")) (x : Item) :
    (visit index steps x).Within ok := by
  induction steps generalizing index x with
  | nil => trivial
  | cons step rest ih =>
    have hrest : ∀ i name x, rest[i]? = some (.tap name) →
        ok (index + 1 + i) (.note s!"{name}:consume {Probe.shown x}") := by
      intro i name x hi
      rw [Nat.add_assoc, Nat.add_comm 1]
      exact hok (i + 1) name x hi
    cases step with
    | tap name => exact ⟨hok 0 name x rfl, fun _ => ih hrest x⟩
    | expand f =>
      rw [visit]
      cases f x with
      | error e => trivial
      | ok ys =>
        apply Stream.within_concat
        intro s hs
        obtain ⟨y, -, rfl⟩ := List.mem_map.mp hs
        exact ih hrest y

end Passing

end Sluice
