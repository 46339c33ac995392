import Sluice.Proofs.Command.Projection
import Sluice.Proofs.Run.Selection

/-!
Runs of `pick` stages over a list of items, alone, next to a `where`, and twice. A condition on a
field asks the same of an object and of what is left of it, so it does not matter whether it is asked
before or after. To pick twice is to pick at once the fields that begin with a field.
-/

namespace Sluice

namespace Invocation

def Picks (fields : List String) (stage : Invocation) : Prop :=
  stage.name = "pick" ∧ Pick.fields stage.args = fields

variable {limit : Option Binary64} {registry : Registry} {stage : Invocation}
  {fields words : List String}

theorem Picks.expandsBy (hbuiltin : builtinCommands limit ⊆ registry.commands)
    (hstage : stage.Picks fields) (hne : fields ≠ []) :
    stage.ExpandsBy registry fun x => .ok [Pick.item fields x] := by
  obtain ⟨hname, rfl⟩ := hstage
  exact expandsBy_pick hbuiltin hname (List.isEmpty_eq_false_iff.mpr hne)

end Invocation

namespace Pipeline

variable {limit : Option Binary64} {registry : Registry}

/-- A run fails at a stage whose arguments are refused. -/
theorem result_of_refused {ctx : Context} {stage : Invocation} {c : Command} {f : Failure}
    (hfind : registry.find? stage.name = some c)
    (hrefused : ∀ index ctx source, c.run index ctx stage.args source = .error f) (index : Nat)
    (source : Stream) (back : Pipeline) (script : Script) :
    ((runFrom registry ctx index source false (stage :: back)).run script).result = .error f := by
  simp only [runFrom, hfind, hrefused, Program.run]

/-- Let conditions be on fields that are picked, under names without a dot. Then a `where` with the
conditions and a `pick` of the fields come to the same end in either order: with the objects that meet
all conditions, and of them the fields that are there, in the order of the fields. Without a condition
both orders fail. -/
theorem where_pick_commute (hbuiltin : builtinCommands limit ⊆ registry.commands) (ctx : Context)
    {filter pick : Invocation} {words fields : List String} (hfilter : filter.Filters words)
    (hpick : pick.Picks fields) {conditions : List Condition}
    (hparse : words.mapM Condition.parse = .ok conditions)
    (hkeys : ∀ c ∈ conditions, c.path ∈ fields ∧ '.' ∉ c.path.toList) (items : List Item)
    (script : Script) :
    let ran (stages : Pipeline) := ((run registry ctx stages (.ofList items)).run script).result
    let left := (items.filter (Condition.keeps conditions)).map (Pick.item fields)
    (words ≠ [] → ran [filter, pick] = .ok (.reached 2 left false) ∧
        ran [pick, filter] = .ok (.reached 2 left false)) ∧
      (words = [] → (∃ f, ran [filter, pick] = .error f) ∧ ∃ f, ran [pick, filter] = .error f) := by
  intro ran left
  have hpaths : ∀ c ∈ conditions, Json.firstKey c.path ∈ fields := fun c hc => by
    rw [Json.firstKey_of_not_mem (hkeys c hc).2]
    exact (hkeys c hc).1
  constructor
  · intro hwords
    have hfields : fields ≠ [] := by
      obtain ⟨c, hc⟩ := List.exists_mem_of_ne_nil _ (Condition.ne_nil_of_mapM hparse hwords)
      exact List.ne_nil_of_mem (hkeys c hc).1
    have hkeep := hfilter.expandsBy hbuiltin hwords hparse
    have hitem := hpick.expandsBy hbuiltin hfields
    have hcomm : (items.map (Pick.item fields)).filter (Condition.keeps conditions) = left := by
      rw [List.filter_map]
      congr 2
      funext x
      exact Condition.keeps_item hpaths x
    constructor
    · refine run_expandsBy (.cons hkeep (.cons hitem .nil)) ctx ?_ script
      rw [Stream.through_cons, Stream.expand_keep, Stream.through_cons, Stream.expand_item]
      rfl
    · refine run_expandsBy (.cons hitem (.cons hkeep .nil)) ctx ?_ script
      rw [Stream.through_cons, Stream.expand_item, Stream.through_cons, Stream.expand_keep, hcomm]
      rfl
  · rintro rfl
    have hfind : registry.find? filter.name = some .filter :=
      hfilter.1 ▸ Registry.find?_of_mem (c := .filter) (hbuiltin (by simp [builtinCommands]))
    have hrefused index ctx source :
        Command.filter.run index ctx filter.args source = refuse .noConditions := by
      rw [Command.filter_follows, Plan.filter, hfilter.2]
      rfl
    refine ⟨⟨_, result_of_refused hfind hrefused 0 _ [pick] script⟩, ?_⟩
    have hexpands : pick.Expands := by
      simp [Invocation.Expands, hpick.1]
    rcases hexpands.expandsBy_or_refused hbuiltin with ⟨f, hf⟩ | ⟨c, e, hfound, hpicked⟩
    · refine ⟨.command .noConditions, ?_⟩
      change ((runFrom registry ctx 0 (.ofList items) false ([pick] ++ [filter])).run script).result
        = _
      rw [runFrom_expandsBy (.cons hf .nil) [filter], run_announcing]
      exact result_of_refused hfind hrefused _ _ [] script
    · exact ⟨e, result_of_refused hfound hpicked 0 _ [filter] script⟩

/-- Of the fields one is on a path and one is missing. Its negated condition is met all the same. -/
theorem missing_field_commutes :
    let registry : Registry := Registry.builtin none
    let item (ms : List (String × Json)) : Item := .value (.obj ms)
    let items := [item [("a", .obj [("x", .int 2)]), ("id", .int 1)], .value (.str "id"),
      item [("id", .int 2)]]
    let filter : Invocation := ⟨"where", [("_", .many ["id=1", "b!=no"])]⟩
    let pick : Invocation := ⟨"pick", [("_", .many ["b,id,a.x"])]⟩
    let ran (stages : Pipeline) :=
      ((run registry ⟨.tool, [], false⟩ stages (.ofList items)).run .empty).result
    ran [filter, pick] = .ok (.completed [item [("id", .int 1), ("a.x", .int 2)]] false) ∧
      ran [pick, filter] = ran [filter, pick] := by
  intro registry item items filter pick ran
  have hparse : ["id=1", "b!=no"].mapM Condition.parse =
      .ok [⟨"id", false, "1"⟩, ⟨"b", true, "no"⟩] := rfl
  have hpick : pick.Picks ["b", "id", "a.x"] := ⟨rfl, by decide⟩
  have hkeys : ∀ c ∈ [(⟨"id", false, "1"⟩ : Condition), ⟨"b", true, "no"⟩],
      c.path ∈ ["b", "id", "a.x"] ∧ '.' ∉ c.path.toList := by
    decide
  have hbuiltin : builtinCommands none ⊆ registry.commands := fun c hc => hc
  have hfilter : filter.Filters ["id=1", "b!=no"] := ⟨rfl, rfl⟩
  obtain ⟨hboth, -⟩ := where_pick_commute hbuiltin ⟨.tool, [], false⟩ hfilter hpick hparse hkeys
    items .empty
  obtain ⟨hfirst, hlast⟩ := hboth (List.cons_ne_nil _ _)
  exact ⟨hfirst, hlast.trans hfirst.symm⟩

theorem run_pick (hbuiltin : builtinCommands limit ⊆ registry.commands) (ctx : Context)
    {stage : Invocation} {fields : List String} (hstage : stage.Picks fields) (hne : fields ≠ [])
    (items : List Item) (script : Script) :
    ((run registry ctx [stage] (.ofList items)).run script).result =
      .ok (.reached 1 (items.map (Pick.item fields)) false) := by
  have hstages := List.Forall₂.cons (hstage.expandsBy hbuiltin hne) .nil
  exact run_expandsBy hstages ctx (Stream.expand_item _ items) script

/-- The second `pick` looks for its fields in what the first one left. -/
theorem run_pick_pick (hbuiltin : builtinCommands limit ⊆ registry.commands) (ctx : Context)
    {first second : Invocation} {fields paths : List String} (hfirst : first.Picks fields)
    (hsecond : second.Picks paths) (hfields : fields ≠ []) (hpaths : paths ≠ [])
    (items : List Item) (script : Script) :
    ((run registry ctx [first, second] (.ofList items)).run script).result =
      .ok (.reached 2 (items.map (Pick.item (Pick.rooted fields paths))) false) := by
  have hstages := List.Forall₂.cons (hfirst.expandsBy hbuiltin hfields)
    (.cons (hsecond.expandsBy hbuiltin hpaths) .nil)
  refine run_expandsBy hstages ctx ?_ script
  have hitems : (items.map (Pick.item fields)).map (Pick.item paths) =
      items.map (Pick.item (Pick.rooted fields paths)) := by
    rw [List.map_map]
    exact List.map_congr_left fun x _ => Pick.item_item fields paths x
  rw [Stream.through_cons, Stream.expand_item, Stream.through_cons, Stream.expand_item, hitems]
  rfl

/-- A `pick` without a field is refused. -/
theorem run_pick_nothing (hbuiltin : builtinCommands limit ⊆ registry.commands) (ctx : Context)
    {stage : Invocation} (hstage : stage.Picks []) (items : List Item) (script : Script) :
    ((run registry ctx [stage] (.ofList items)).run script).result =
      .error (.command .noFields) := by
  obtain ⟨hname, hfields⟩ := hstage
  have hfind : registry.find? stage.name = some .pick :=
    hname ▸ Registry.find?_of_mem (c := .pick) (hbuiltin (by simp [builtinCommands]))
  have hrefused index ctx source :
      Command.pick.run index ctx stage.args source = .error (.command .noFields) := by
    simp only [Command.pick, hfields]
    rfl
  exact result_of_refused hfind hrefused 0 _ [] script

/-- A path that does not begin with a field is found once and not again. Over two items this makes a
difference, for they are never a sole request. -/
theorem exists_not_picked_again (hbuiltin : builtinCommands limit ⊆ registry.commands)
    (ctx : Context) {first second : Invocation} {fields : List String}
    (hfirst : first.Picks fields) (hsecond : second.Picks fields) {path : String}
    (hpath : path ∈ fields) (hkey : Json.firstKey path ∉ fields) :
    ∃ items once twice : List Item,
      ((run registry ctx [first] (.ofList items)).run .empty).result =
          .ok (.completed once false) ∧
        ((run registry ctx [first, second] (.ofList items)).run .empty).result =
          .ok (.completed twice false) ∧ twice ≠ once := by
  have hne : fields ≠ [] := List.ne_nil_of_mem hpath
  let x : Item := .value (.nest (Json.pathKeys path) .null)
  have hended (stages : Nat) (f : Item → Item) :
      Outcome.reached stages ([x, x].map f) false = .completed ([x, x].map f) false :=
    Outcome.reached_of_none rfl
  refine ⟨[x, x], [x, x].map (Pick.item fields), [x, x].map (Pick.item (Pick.rooted fields fields)),
    ?_, ?_, fun heq => Pick.item_rooted_ne hpath hkey (List.cons.inj heq).1⟩
  · rw [run_pick hbuiltin ctx hfirst hne, hended]
  · rw [run_pick_pick hbuiltin ctx hfirst hsecond hne hne, hended]

/-- To pick some fields twice is to pick once those of them that begin with a field: a plain name
does, a path does if its first name is a field too. Where none does, a `pick` of none would be refused,
and to pick twice leaves empty objects. So the second `pick` leaves every list of items as it is,
wherever the two runs do not halt, if and only if all fields begin with a field. -/
theorem pick_again_iff (hbuiltin : builtinCommands limit ⊆ registry.commands) (ctx : Context)
    {first second : Invocation} {fields : List String} (hfirst : first.Picks fields)
    (hsecond : second.Picks fields) (hne : fields ≠ []) :
    let ran (stages : Pipeline) (items : List Item) (script : Script) :=
      ((run registry ctx stages (.ofList items)).run script).result
    let halts (r : Except Failure Outcome) := ∃ o, r = .ok o ∧ o.halted = true
    let left := Pick.rooted fields fields
    (∀ items script,
      ran [first] items script = .ok (.reached 1 (items.map (Pick.item fields)) false) ∧
      ran [first, second] items script =
        .ok (.reached 2 (items.map (Pick.item left)) false)) ∧
    (∀ once : Invocation, once.Picks left → left ≠ [] → ∀ items script,
      ran [once] items script = .ok (.reached 1 (items.map (Pick.item left)) false)) ∧
    (left = [] →
      (∀ once : Invocation, once.Picks left → ∀ items script,
        ran [once] items script = .error (.command .noFields)) ∧
      ∀ items script, ran [first, second] items script =
        .ok (.reached 2 (items.map Pick.emptied) false)) ∧
    ((∀ items script, ¬ halts (ran [first] items script) →
        ¬ halts (ran [first, second] items script) →
        ran [first, second] items script = ran [first] items script) ↔
      ∀ path ∈ fields, Json.firstKey path ∈ fields) := by
  intro ran halts left
  have honce := run_pick hbuiltin ctx hfirst hne
  have htwice := run_pick_pick hbuiltin ctx hfirst hsecond hne hne
  refine ⟨fun items script => ⟨honce items script, htwice items script⟩, ?_, ?_, ?_, ?_⟩
  · intro once hpicks hleft items script
    exact run_pick hbuiltin ctx hpicks hleft items script
  · intro hleft
    refine ⟨fun once hpicks => run_pick_nothing hbuiltin ctx (hleft ▸ hpicks), ?_⟩
    intro items script
    rw [← List.map_congr_left fun x _ => Pick.item_nil x, ← hleft]
    exact htwice items script
  · intro hsame path hpath
    by_contra hkey
    obtain ⟨items, once, twice, hran, hran', hdiffer⟩ :=
      exists_not_picked_again hbuiltin ctx hfirst hsecond hpath hkey
    have hquiet (xs : List Item) : ¬ halts (.ok (.completed xs false)) := by
      rintro ⟨o, ho, hhalted⟩
      cases ho
      cases hhalted
    have hruns := hsame items .empty
    simp only [ran, hran, hran'] at hruns
    have houtcomes := Except.ok.inj (hruns (hquiet once) (hquiet twice))
    exact hdiffer (congrArg Outcome.items houtcomes)
  · intro hkeys items script hfirstRun hsecondRun
    have hnone : Item.soleApproval? (items.map (Pick.item fields)) = none := by
      have hended : (Outcome.reached 1 (items.map (Pick.item fields)) false).halted = false :=
        Bool.eq_false_iff.mpr fun hhalted => hfirstRun ⟨_, honce items script, hhalted⟩
      exact Outcome.soleApproval?_of_reached Nat.one_pos hended
    simp only [ran, honce, htwice, Pick.rooted_self_iff.mpr hkeys, Outcome.reached_of_none hnone]

/-- One path is picked with its first name and is found again, another without it and is not: to pick
twice is to pick the others at once. -/
theorem path_with_first_name_picked_again :
    let registry : Registry := Registry.builtin none
    let ctx : Context := ⟨.tool, [], false⟩
    let pick : Invocation := ⟨"pick", [("_", .many ["a.b,a,c", "d.e"])]⟩
    let once : Invocation := ⟨"pick", [("fields", .single "a.b,a,c")]⟩
    let inner : Json := .obj [("b", .int 1), ("d", .null)]
    let items : List Item :=
      [.value (.obj [("a", inner), ("d", .obj [("e", .int 2)])]), .value (.int 3)]
    let picked (ms : List (String × Json)) : List Item :=
      [.value (.obj ([("a.b", .int 1), ("a", inner)] ++ ms)), .value (.int 3)]
    let ran (stages : Pipeline) := ((run registry ctx stages (.ofList items)).run .empty).result
    ran [pick] = .ok (.completed (picked [("d.e", .int 2)]) false) ∧
      ran [pick, pick] = .ok (.completed (picked []) false) ∧
      ran [once] = ran [pick, pick] := by
  intro registry ctx pick once inner items picked ran
  have hpick : pick.Picks ["a.b", "a", "c", "d.e"] := ⟨rfl, by decide⟩
  have honce : once.Picks (Pick.rooted ["a.b", "a", "c", "d.e"] ["a.b", "a", "c", "d.e"]) :=
    ⟨rfl, by decide⟩
  have hbuiltin : builtinCommands none ⊆ registry.commands := fun c hc => hc
  obtain ⟨hruns, honly, -, -⟩ := pick_again_iff hbuiltin ctx hpick hpick (List.cons_ne_nil _ _)
  obtain ⟨hfirst, hboth⟩ := hruns items .empty
  have hleft := honly once honce (by decide) items .empty
  exact ⟨hfirst, hboth, hleft.trans hboth.symm⟩

/-- The path is picked without its first name. Its value is kept under the whole path, where it is not
found again. -/
theorem path_alone_not_picked_again :
    let pick : Invocation := ⟨"pick", [("_", .many ["id,author.login"])]⟩
    let item (ms : List (String × Json)) : Item := .value (.obj ms)
    let items := [item [("id", .int 1), ("author", .obj [("login", .str "me"), ("id", .int 9)])]]
    let ran (stages : Pipeline) :=
      ((run (Registry.builtin none) ⟨.tool, [], false⟩ stages (.ofList items)).run .empty).result
    ran [pick] = .ok (.completed [item [("id", .int 1), ("author.login", .str "me")]] false) ∧
      ran [pick, pick] = .ok (.completed [item [("id", .int 1)]] false) := by
  intro pick item items ran
  have hbuiltin : builtinCommands none ⊆ (Registry.builtin none).commands := fun c hc => hc
  have hpick : pick.Picks ["id", "author.login"] := ⟨rfl, by decide⟩
  have hne : ["id", "author.login"] ≠ [] := List.cons_ne_nil _ _
  exact ⟨run_pick hbuiltin _ hpick hne items .empty,
    run_pick_pick hbuiltin _ hpick hpick hne hne items .empty⟩

end Pipeline

end Sluice
