import Mathlib.Order.Bounds.Defs
import Sluice.Command.Probe
import Sluice.Proofs.Command.Soundness
import Sluice.Proofs.Run.Composition
import Sluice.Proofs.Stream.Expansion
import Sluice.Proofs.Text.Integer

/-!
How much of its source a `head` needs. Stages that turn items into items one at a time stand between
the two, and a tap at the source notes what is pulled of it. No item is pulled for which there is no
use: the count asks for the next item of the source as long as too few have come out, and the item
after the last one that is needed is not looked at.
-/

namespace Sluice

namespace Invocation

/-- A stage that turns each item into a list of items. -/
def Expands (stage : Invocation) : Prop :=
  stage.name ∈ ["json", "pick", "where"]

/-- A stage that turns each item into what a function makes of it, wherever it stands. -/
def ExpandsBy (registry : Registry) (stage : Invocation)
    (f : Item → Except Failure (List Item)) : Prop :=
  ∃ c, registry.find? stage.name = some c ∧
    ∀ index ctx source, c.run index ctx stage.args source = .ok (.plain (source.expand f))

/-- A `where` with conditions turns each item that they keep into itself. -/
theorem expandsBy_keep {limit : Option Binary64} {registry : Registry}
    (hbuiltin : builtinCommands limit ⊆ registry.commands) {stage : Invocation}
    (hname : stage.name = "where") {conditions : List Condition}
    (hparse : stage.args.positional.mapM Condition.parse = .ok conditions)
    (hne : conditions.isEmpty = false) : stage.ExpandsBy registry (Plan.keep conditions) := by
  refine ⟨.filter, ?_, fun index ctx source => ?_⟩
  · exact hname ▸ Registry.find?_of_mem (c := .filter) (hbuiltin (by simp [builtinCommands]))
  · rw [Command.filter_follows, Plan.filter]
    simp only [hparse, hne, Bool.false_eq_true, ↓reduceIte]
    rfl

theorem expandsBy_json {limit : Option Binary64} {registry : Registry}
    (hbuiltin : builtinCommands limit ⊆ registry.commands) {stage : Invocation}
    (hname : stage.name = "json") : stage.ExpandsBy registry Decode.items := by
  refine ⟨.json, ?_, fun index ctx source => rfl⟩
  exact hname ▸ Registry.find?_of_mem (c := .json) (hbuiltin (by simp [builtinCommands]))

/-- A `pick` with fields turns each item into what is left of it. -/
theorem expandsBy_pick {limit : Option Binary64} {registry : Registry}
    (hbuiltin : builtinCommands limit ⊆ registry.commands) {stage : Invocation}
    (hname : stage.name = "pick") (hne : (Pick.fields stage.args).isEmpty = false) :
    stage.ExpandsBy registry fun x => .ok [Pick.item (Pick.fields stage.args) x] := by
  refine ⟨.pick, ?_, fun index ctx source => ?_⟩
  · exact hname ▸ Registry.find?_of_mem (c := .pick) (hbuiltin (by simp [builtinCommands]))
  · simp only [Command.pick, hne, Bool.false_eq_true, ↓reduceIte]

/-- Such a stage does so, or its arguments are refused wherever it stands. -/
theorem Expands.expandsBy_or_refused {limit : Option Binary64} {registry : Registry}
    (hbuiltin : builtinCommands limit ⊆ registry.commands) {stage : Invocation}
    (hstage : stage.Expands) :
    (∃ f, stage.ExpandsBy registry f) ∨
      ∃ c e, registry.find? stage.name = some c ∧
        ∀ index ctx source, c.run index ctx stage.args source = .error e := by
  have hfind {c : Command} (hname : stage.name = c.name) (hc : c ∈ builtinCommands limit) :
      registry.find? stage.name = some c :=
    hname ▸ Registry.find?_of_mem (hbuiltin hc)
  simp only [Expands, List.mem_cons, List.not_mem_nil, or_false] at hstage
  rcases hstage with hname | hname | hname
  · exact .inl ⟨Decode.items, expandsBy_json hbuiltin hname⟩
  · have hpick := hfind (c := .pick) hname (by simp [builtinCommands])
    cases hfields : (Pick.fields stage.args).isEmpty with
    | true =>
      refine .inr ⟨_, .command .noFields, hpick, fun _ _ _ => ?_⟩
      simp only [Command.pick, hfields, ↓reduceIte, refuse]
    | false => exact .inl ⟨_, expandsBy_pick hbuiltin hname hfields⟩
  · have hfilter := hfind (c := .filter) hname (by simp [builtinCommands])
    have hrun index ctx source := Command.filter_follows index ctx stage.args source
    simp only [Plan.filter] at hrun
    cases hparse : stage.args.positional.mapM Condition.parse with
    | error e =>
      refine .inr ⟨_, e, hfilter, fun _ _ _ => ?_⟩
      rw [hrun, hparse]
      rfl
    | ok conditions =>
      cases hempty : conditions.isEmpty with
      | true =>
        refine .inr ⟨_, .command .noConditions, hfilter, fun _ _ _ => ?_⟩
        simp only [hrun, hparse, hempty, ↓reduceIte, refuse, Except.map]
      | false => exact .inl ⟨Plan.keep conditions, expandsBy_keep hbuiltin hname hparse hempty⟩

end Invocation

/-- A flag with the digits of a number asks for as many items, as long as there are no more digits
than are read. -/
theorem Head.count_digits {n : Nat} (h : (Decimal.digitsOf n).length ≤ Text.maxDigits) :
    count [("_", .many []), ("n", .single (String.ofList (Decimal.digitsOf n)))] = .ok n := by
  have hne : Decimal.digitsOf n ≠ [] := by
    obtain ⟨d, ds, hcons, -⟩ := (Json.isWhole_digitsOf n).cons
    exact hcons ▸ List.cons_ne_nil d ds
  have hread : Text.integer? (Decimal.digitsOf n) = some (n : Int) := by
    rw [Text.integer?_digits (Json.digits_digitsOf n) hne h, Json.digitsValue_digitsOf]
  have hflag : Args.integer [("_", .many []), ("n", .single (String.ofList (Decimal.digitsOf n)))]
      "n" defaultCount = .ok (n : Int) := by
    simp [Args.integer, Args.flag?, Args.texts, ArgValue.texts, List.lookup_cons, hread]
  change (Args.integer _ "n" defaultCount >>= fun n : Int =>
    if n < 0 then refuse .countNegative else pure n.toNat) = _
  rw [hflag]
  change (if (n : Int) < 0 then refuse .countNegative else pure (n : Int).toNat) = _
  rw [if_neg (Int.not_lt.mpr (Int.natCast_nonneg n)), Int.toNat_natCast]
  rfl

namespace Probe

def consumed (stage : Nat) (name : String) (xs : List Item) : List Logged :=
  xs.map fun x => ⟨stage, .note s!"{name}:consume {shown x}"⟩

/-- The first items of what comes of a tapped source behind some expansions. -/
def pulled (stage : Nat) (name : String) (fs : List (Item → Except Failure (List Item))) (n : Nat)
    (source : Stream) : Program (List Item) :=
  (((tap stage name source).through fs).take n).collect

variable {stage : Nat} {name : String} {fs : List (Item → Except Failure (List Item))} {n : Nat}
  {xs ys zs : List Item}

/-- As long as an item is missing, the next one of the source is pulled and noted. What it comes to
is missing no more. -/
theorem run_pulled_yield {x : Item}
    (hx : ∀ s, (Stream.yield x s).through fs = .prepend ys (s.through fs)) (hn : 0 < n) (s : Stream)
    (script : Script) :
    (pulled stage name fs n (.yield x s)).run script =
      let r := (pulled stage name fs (n - ys.length) s).run script
      ⟨r.result.map (ys.take n ++ ·), r.script, consumed stage name [x] ++ r.log⟩ := by
  obtain ⟨n, rfl⟩ := Nat.exists_eq_succ_of_ne_zero (Nat.ne_zero_of_lt hn)
  rw [pulled, tap, Stream.through_perform, Stream.take, Stream.collect, Program.run]
  simp only [hx, Stream.take_prepend, Stream.run_collect_prepend]
  rfl

/-- Enough comes of some items and not of fewer. Then these are pulled, and nothing behind them. -/
theorem run_pulled_enough (hall : (Stream.ofList xs).through fs = .ofList zs)
    (henough : n ≤ zs.length)
    (hleast : ∀ k ys, k < xs.length → (Stream.ofList (xs.take k)).through fs = .ofList ys →
      ys.length < n)
    (rest : Stream) (script : Script) :
    (pulled stage name fs n (.prepend xs rest)).run script =
      ⟨.ok (zs.take n), script, consumed stage name xs⟩ := by
  induction xs generalizing n zs with
  | nil =>
    rw [Stream.ofList_nil, Stream.through_done] at hall
    obtain rfl : [] = zs := Stream.ofList_injective hall
    obtain rfl := Nat.le_zero.mp henough
    rw [pulled, Stream.take]
    rfl
  | cons x xs ih =>
    have hn : 0 < n := hleast 0 [] (Nat.succ_pos _) (Stream.through_done fs)
    obtain ⟨ys, more, rfl, hx, hmore⟩ := Stream.through_prepend [x] hall
    rw [List.length_append] at henough
    have hrest := ih (n := n - ys.length) hmore (by omega) ?_
    · rw [Stream.prepend_cons, run_pulled_yield hx hn, hrest]
      simp [Except.map, consumed, List.take_append]
    · -- If fewer of the other items came to what is missing, fewer of all would be enough.
      intro k vs hk hvs
      have htake : (Stream.ofList ((x :: xs).take (k + 1))).through fs = .ofList (ys ++ vs) := by
        rw [← Stream.prepend_ofList, ← hvs]
        exact hx _
      have hlength := hleast (k + 1) _ (Nat.succ_lt_succ hk) htake
      rw [List.length_append] at hlength
      omega

/-- Too few items come of all. Then all are pulled, and the end of the source. -/
theorem run_pulled_all (hall : (Stream.ofList xs).through fs = .ofList zs) (hfew : zs.length < n)
    (script : Script) :
    (pulled stage name fs n (.ofList xs)).run script =
      ⟨.ok zs, script, consumed stage name xs ++ [⟨stage, .note s!"{name}:end"⟩]⟩ := by
  induction xs generalizing n zs with
  | nil =>
    rw [Stream.ofList_nil, Stream.through_done] at hall
    obtain rfl : [] = zs := Stream.ofList_injective hall
    obtain ⟨n, rfl⟩ := Nat.exists_eq_succ_of_ne_zero (Nat.ne_zero_of_lt hfew)
    rw [Stream.ofList_nil, pulled, tap, Stream.through_perform]
    simp only [Stream.through_done]
    rfl
  | cons x xs ih =>
    obtain ⟨ys, more, rfl, hx, hmore⟩ := Stream.through_prepend [x] hall
    rw [List.length_append] at hfew
    have hrest := ih (n := n - ys.length) hmore (by omega)
    have hys : ys.take n = ys := List.take_of_length_le (by omega)
    change (pulled stage name fs n (.yield x (.ofList xs))).run script = _
    rw [run_pulled_yield hx (by omega), hrest, hys]
    rfl

end Probe

/-- The outcome of a run that has come to its last stage and has all items of that. -/
def Outcome.atEnd (last : Nat) (items : List Item) : Outcome :=
  match Item.soleApproval? items with
  | some a => .haltedOn last a
  | none => .completed items false

namespace Pipeline

variable {limit : Option Binary64} {registry : Registry} {ctx : Context} {index : Nat}
  {source : Stream} {stages : Pipeline} {fs : List (Item → Except Failure (List Item))}

theorem finish_succ (last : Nat) (source : Stream) :
    finish (last + 1) source false = source.collect.bind fun xs => .pure (.atEnd last xs) := by
  rw [finish_reached]
  congr 1
  funext xs
  simp only [Outcome.reached, Outcome.atEnd]
  cases Item.soleApproval? xs <;> rfl

/-- Stages that turn items into items and can be opened. -/
theorem exists_expandsBy (hbuiltin : builtinCommands limit ⊆ registry.commands)
    (hstages : ∀ stage ∈ stages, stage.Expands) {script : Script} {stream : Stream}
    (h : ((opened registry ctx index source stages).run script).result = .ok stream) :
    ∃ fs, List.Forall₂ (Invocation.ExpandsBy registry) stages fs := by
  induction stages generalizing index source with
  | nil => exact ⟨[], .nil⟩
  | cons stage rest ih =>
    rw [List.forall_mem_cons] at hstages
    rcases hstages.1.expandsBy_or_refused hbuiltin with ⟨f, hf⟩ | ⟨c, e, hfind, hrun⟩
    · obtain ⟨c, hfind, hrun⟩ := hf
      simp only [opened, hfind, Program.run, hrun] at h
      obtain ⟨fs, hfs⟩ := ih hstages.2 h
      exact ⟨f :: fs, .cons ⟨c, hfind, hrun⟩ hfs⟩
    · simp only [opened, hfind, Program.run, hrun] at h
      cases h

/-- They are announced, and their stream is that of their source behind the expansions. -/
theorem opened_expandsBy (h : List.Forall₂ (Invocation.ExpandsBy registry) stages fs) :
    opened registry ctx index source stages =
      announcing index (.pure (source.through fs)) stages := by
  induction h generalizing index source with
  | nil => rfl
  | cons hstage _ ih =>
    obtain ⟨c, hfind, hrun⟩ := hstage
    simp only [opened, hfind, hrun, StageOutput.plain, ih]
    rfl

/-- In a run they leave it to the stages behind them to pull. -/
theorem runFrom_expandsBy (h : List.Forall₂ (Invocation.ExpandsBy registry) stages fs)
    (back : Pipeline) :
    runFrom registry ctx index source false (stages ++ back) =
      announcing index (runFrom registry ctx (index + stages.length) (source.through fs) false back)
        stages := by
  induction h generalizing index source with
  | nil => rfl
  | cons hstage _ ih =>
    obtain ⟨c, hfind, hrun⟩ := hstage
    simp only [List.cons_append, runFrom, hfind, hrun, StageOutput.plain, Bool.false_eq_true,
      ↓reduceIte, ih, announcing, List.length_cons, Nat.add_assoc, Nat.add_comm 1]
    rfl

/-- They yield some items for a list of items if that comes to these behind the expansions. -/
theorem yields_ok_iff (h : List.Forall₂ (Invocation.ExpandsBy registry) stages fs)
    (items ys : List Item) (script : Script) :
    ((yields registry ctx stages (.ofList items)).run script).result = .ok ys ↔
      (Stream.ofList items).through fs = .ofList ys := by
  rw [yields, opened_expandsBy h, announcing_bind, Program.bind_pure, run_announcing]
  constructor
  · intro hys
    have hquiet : ((Stream.ofList items).through fs).Within fun _ _ => False :=
      (Stream.within_ofList items).through fs
    exact Stream.eq_ofList hquiet hys
  · intro hthrough
    rw [hthrough, Stream.collect_ofList]
    rfl

/-- A run of a tap, such stages and a `head` announces all of them and then pulls. -/
theorem run_tap_head (hbuiltin : builtinCommands limit ⊆ registry.commands) {tap head : Invocation}
    {help : String} (htap : Command.probe tap.name help .tap false false ∈ registry.commands)
    (h : List.Forall₂ (Invocation.ExpandsBy registry) stages fs) (hhead : head.name = "head")
    {n : Nat} (hcount : Head.count head.args = .ok n) (source : Stream) (script : Script) :
    let r := (Probe.pulled 0 tap.name fs n source).run script
    (run registry ctx (tap :: (stages ++ [head])) source).run script =
      ⟨r.result.map (.atEnd (stages.length + 1)), r.script,
        announcements 0 (tap :: (stages ++ [head])) ++ r.log⟩ := by
  have hfindTap : registry.find? tap.name = some (.probe tap.name help .tap false false) :=
    Registry.find?_of_mem htap
  have hfindHead : registry.find? head.name = some .head :=
    hhead ▸ Registry.find?_of_mem (c := .head) (hbuiltin (by simp [builtinCommands]))
  have hrunHead (index : Nat) (source : Stream) :
      Command.head.run index ctx head.args source = .ok (.plain (source.take n)) := by
    rw [Command.head_follows, Plan.head, hcount]
    rfl
  have hlast : 0 + 1 + stages.length = stages.length + 1 := by
    omega
  have hannounce : run registry ctx (tap :: (stages ++ [head])) source =
      announcing 0 ((Probe.pulled 0 tap.name fs n source).bind fun xs =>
        .pure (.atEnd (stages.length + 1) xs)) (tap :: (stages ++ [head])) := by
    rw [run, runFrom, hfindTap, announcing, announcing_append]
    simp only [Command.probe, Bool.false_eq_true, ↓reduceIte, runFrom_expandsBy h, runFrom,
      hfindHead, hrunHead, StageOutput.plain, finish_succ]
    rw [hlast]
    rfl
  intro r
  rw [hannounce, run_announcing, Program.run_map]

/-- A tap, stages that turn items into items, and a `head` of some count, over some items. If there
are first items of which the stages yield enough, then no more are pulled than the fewest of that
kind: the tap has noted these in order and nothing else, and the run ends on the first items that
the stages yield, or halts if they are a sole request, whatever stands behind in the source, also
where the stages would fail on it. If the stages yield too few items for all, then all are pulled,
and the end. -/
theorem head_demands_least (hbuiltin : builtinCommands limit ⊆ registry.commands) (ctx : Context)
    {tap head : Invocation} {help : String} {n : Nat}
    (htap : Command.probe tap.name help .tap false false ∈ registry.commands)
    (hstages : ∀ stage ∈ stages, stage.Expands) (hhead : head.name = "head")
    (hcount : Head.count head.args = .ok n) (items : List Item) :
    let pipeline := tap :: (stages ++ [head])
    let yielded (k : Nat) :=
      ((yields registry ctx stages (.ofList (items.take k))).run .empty).result
    (∀ k ys, IsLeast {k | ∃ ys, yielded k = .ok ys ∧ n ≤ ys.length} k → yielded k = .ok ys →
      k ≤ items.length ∧ ∀ rest script,
        (run registry ctx pipeline (.prepend (items.take k) rest)).run script =
          ⟨.ok (.atEnd (stages.length + 1) (ys.take n)), script,
            announcements 0 pipeline ++ Probe.consumed 0 tap.name (items.take k)⟩) ∧
    (∀ ys, yielded items.length = .ok ys → ys.length < n → ∀ script,
      (run registry ctx pipeline (.ofList items)).run script =
        ⟨.ok (.atEnd (stages.length + 1) ys), script,
          announcements 0 pipeline ++
            (Probe.consumed 0 tap.name items ++ [⟨0, .note s!"{tap.name}:end"⟩])⟩) := by
  intro pipeline yielded
  have hyielded {k : Nat} {ys : List Item} (h : yielded k = .ok ys) :
      ∃ fs, List.Forall₂ (Invocation.ExpandsBy registry) stages fs ∧
        ∀ j vs, yielded j = .ok vs ↔ (Stream.ofList (items.take j)).through fs = .ofList vs := by
    obtain ⟨stream, hopened, -⟩ := Program.result_bind_ok h
    obtain ⟨fs, hfs⟩ := exists_expandsBy hbuiltin hstages hopened
    exact ⟨fs, hfs, fun j vs => yields_ok_iff hfs _ _ _⟩
  constructor
  · intro k ys hleast hys
    obtain ⟨fs, hfs, hiff⟩ := hyielded hys
    obtain ⟨⟨zs, hzs, henough⟩, hbelow⟩ := hleast
    obtain rfl : ys = zs := Except.ok.inj (hys.symm.trans hzs)
    have hk : k ≤ items.length := by
      by_contra hgt
      have hlength : yielded items.length = .ok ys := by
        rw [← hys]
        simp only [yielded, List.take_length, List.take_of_length_le (Nat.le_of_not_le hgt)]
      exact hgt (hbelow ⟨ys, hlength, henough⟩)
    refine ⟨hk, fun rest script => ?_⟩
    have hfewer : ∀ j vs, j < (items.take k).length →
        (Stream.ofList ((items.take k).take j)).through fs = .ofList vs → vs.length < n := by
      intro j vs hj hvs
      rw [List.length_take, Nat.lt_min] at hj
      rw [List.take_take, Nat.min_eq_left (Nat.le_of_lt hj.1), ← hiff] at hvs
      by_contra hge
      exact absurd (hbelow ⟨vs, hvs, Nat.le_of_not_lt hge⟩) (Nat.not_le_of_lt hj.1)
    rw [run_tap_head hbuiltin htap hfs hhead hcount,
      Probe.run_pulled_enough ((hiff k ys).mp hys) henough hfewer]
    rfl
  · intro ys hys hfew script
    obtain ⟨fs, hfs, hiff⟩ := hyielded hys
    have hall := (hiff _ _).mp hys
    rw [List.take_length] at hall
    rw [run_tap_head hbuiltin htap hfs hhead hcount, Probe.run_pulled_all hall hfew]
    rfl

/-- The one item that is asked for comes of the third item of the source, where the first comes to
two items that are dropped. The text behind it is no JSON. Of the first two items alone nothing
comes. -/
theorem head_leaves_unreadable_text :
    let registry : Registry :=
      ⟨.probe "tap" "" .tap false false :: builtinCommands none, by decide⟩
    let ctx : Context := ⟨.tool, [], false⟩
    let tap : Invocation := ⟨"tap", Args.empty⟩
    let stages : Pipeline := [⟨"json", Args.empty⟩, ⟨"where", [("_", .many ["a!=1"])]⟩]
    let head : Invocation := ⟨"head", [("_", .many []), ("n", .single "1")]⟩
    let pipeline : Pipeline := tap :: (stages ++ [head])
    let front : List Item := [.value (.str "[7,8]"), .value (.obj [("a", .int 1)])]
    let kept : Item := .value (.obj [("a", .int 2)])
    let items : List Item := front ++ [kept, .value (.str "no JSON")]
    (run registry ctx pipeline (.ofList items)).run .empty =
        ⟨.ok (.completed [kept] false), .empty,
          announcements 0 pipeline ++ Probe.consumed 0 "tap" (front ++ [kept])⟩ ∧
      (run registry ctx pipeline (.ofList front)).run .empty =
        ⟨.ok (.completed [] false), .empty,
          announcements 0 pipeline ++
            (Probe.consumed 0 "tap" front ++ [⟨0, .note "tap:end"⟩])⟩ := by
  intro registry ctx tap stages head pipeline front kept items
  have hbuiltin : builtinCommands none ⊆ registry.commands := List.subset_cons_self _ _
  have htap : Command.probe tap.name "" .tap false false ∈ registry.commands :=
    List.mem_cons_self ..
  have hstages : ∀ stage ∈ stages, stage.Expands := by
    simp [stages, Invocation.Expands]
  have hcount : Head.count head.args = .ok 1 := Head.count_digits (n := 1) (by decide)
  let yielded (k : Nat) :=
    ((yields registry ctx stages (.ofList (items.take k))).run .empty).result
  have hthree : yielded 3 = .ok [kept] := by rfl
  have hleast : IsLeast {k | ∃ ys, yielded k = .ok ys ∧ 1 ≤ ys.length} 3 := by
    refine ⟨⟨_, hthree, Nat.le_refl 1⟩, ?_⟩
    rintro k ⟨ys, hys, hlength⟩
    by_contra hk
    have hnone : yielded k = .ok [] := by
      have hcase : k = 0 ∨ k = 1 ∨ k = 2 := by omega
      rcases hcase with rfl | rfl | rfl <;> rfl
    obtain rfl := Except.ok.inj (hys.symm.trans hnone)
    exact absurd hlength (by decide)
  constructor
  · obtain ⟨hfirst, -⟩ := head_demands_least hbuiltin ctx htap hstages rfl hcount items
    exact (hfirst 3 [kept] hleast hthree).2 (.ofList [.value (.str "no JSON")]) .empty
  · obtain ⟨-, hall⟩ := head_demands_least hbuiltin ctx htap hstages rfl hcount front
    have hfront : ((yields registry ctx stages (.ofList (front.take 2))).run .empty).result =
        .ok [] := by rfl
    exact hall [] hfront (by decide) .empty

end Pipeline

end Sluice
