import Sluice.Proofs.Command.Filtering
import Sluice.Proofs.Run.Demand

/-!
Runs of `where` stages over a list of items. The conditions of a stage are asked of each item, so one
stage with several conditions can be told from a chain of stages with one condition each only by the
index at which a run halts on a request that is left.
-/

namespace Sluice

namespace Invocation

/-- A `where` with these words. Its flags are not looked at. -/
def Filters (words : List String) (stage : Invocation) : Prop :=
  stage.name = "where" ∧ stage.args.positional = words

theorem Filters.expandsBy {limit : Option Binary64} {registry : Registry}
    (hbuiltin : builtinCommands limit ⊆ registry.commands) {stage : Invocation}
    {words : List String} (hstage : stage.Filters words) (hne : words ≠ [])
    {conditions : List Condition} (hparse : words.mapM Condition.parse = .ok conditions) :
    stage.ExpandsBy registry (Plan.keep conditions) := by
  obtain ⟨hname, rfl⟩ := hstage
  have hconditions := Condition.ne_nil_of_mapM hparse hne
  exact expandsBy_keep hbuiltin hname hparse (List.isEmpty_eq_false_iff.mpr hconditions)

/-- Stages with one word each. -/
theorem Filters.chain_expandsBy {limit : Option Binary64} {registry : Registry}
    (hbuiltin : builtinCommands limit ⊆ registry.commands) {chain : Pipeline} {words : List String}
    (hchain : List.Forall₂ (fun word stage => stage.Filters [word]) words chain)
    {conditions : List Condition} (hparse : words.mapM Condition.parse = .ok conditions) :
    List.Forall₂ (ExpandsBy registry) chain (conditions.map fun c => Plan.keep [c]) := by
  have hread := mapM_eq_ok_iff.mp hparse
  clear hparse
  induction hchain generalizing conditions with
  | nil =>
    cases hread
    exact .nil
  | cons hstage _ ih =>
    cases hread with
    | cons hword hrest =>
      have hsingle := mapM_eq_ok_iff.mpr (.cons hword .nil)
      exact .cons (hstage.expandsBy hbuiltin (List.cons_ne_nil _ _) hsingle) (ih hrest)

end Invocation

namespace Pipeline

variable {limit : Option Binary64} {registry : Registry} {stages : Pipeline}

/-- A run of stages that turn items into items comes to its end with what becomes of the items. -/
theorem run_expandsBy {fs : List (Item → Except Failure (List Item))}
    (h : List.Forall₂ (Invocation.ExpandsBy registry) stages fs) (ctx : Context)
    {items ys : List Item} (hthrough : (Stream.ofList items).through fs = .ofList ys)
    (script : Script) :
    ((run registry ctx stages (.ofList items)).run script).result =
      .ok (.reached stages.length ys false) := by
  have hrun : run registry ctx stages (.ofList items) =
      announcing 0 (finish (0 + stages.length) ((Stream.ofList items).through fs) false) stages := by
    simpa only [List.append_nil, run, runFrom] using runFrom_expandsBy h []
  rw [hrun, finish_reached, hthrough, Stream.collect_ofList, run_announcing, Nat.zero_add]
  rfl

/-- A `where` comes to its end with the items that its conditions keep. -/
theorem run_filters (hbuiltin : builtinCommands limit ⊆ registry.commands) (ctx : Context)
    {stage : Invocation} {words : List String} (hstage : stage.Filters words) (hne : words ≠ [])
    {conditions : List Condition} (hparse : words.mapM Condition.parse = .ok conditions)
    (items : List Item) (script : Script) :
    ((run registry ctx [stage] (.ofList items)).run script).result =
      .ok (.reached 1 (items.filter (Condition.keeps conditions)) false) := by
  have hstages := List.Forall₂.cons (hstage.expandsBy hbuiltin hne hparse) .nil
  exact run_expandsBy hstages ctx (Stream.expand_keep conditions items) script

/-- So does a chain of stages with one of the conditions each. -/
theorem run_filters_chain (hbuiltin : builtinCommands limit ⊆ registry.commands) (ctx : Context)
    {chain : Pipeline} {words : List String}
    (hchain : List.Forall₂ (fun word stage => stage.Filters [word]) words chain) (hne : words ≠ [])
    {conditions : List Condition} (hparse : words.mapM Condition.parse = .ok conditions)
    (items : List Item) (script : Script) :
    ((run registry ctx chain (.ofList items)).run script).result =
      .ok (.reached chain.length (items.filter (Condition.keeps conditions)) false) := by
  have hstages := Invocation.Filters.chain_expandsBy hbuiltin hchain hparse
  have hconditions := Condition.ne_nil_of_mapM hparse hne
  exact run_expandsBy hstages ctx (Stream.through_keep hconditions items) script

/-- Let a run of a `where` with some valid words not halt. Then it leaves the objects of the source
that meet all of its conditions, in order. A chain of stages with one of the words each leaves the
same, and so does a stage that has the same words in another order or some of them repeatedly. The
objects of the source that one condition keeps and those that its negated form keeps are the objects
that meet it and the rest of them. -/
theorem where_conjoins (hbuiltin : builtinCommands limit ⊆ registry.commands) (ctx : Context)
    {stage : Invocation} {words : List String} (hstage : stage.Filters words) (hne : words ≠ [])
    {conditions : List Condition} (hparse : words.mapM Condition.parse = .ok conditions)
    (items : List Item) (script : Script)
    (hruns : ∀ o, ((run registry ctx [stage] (.ofList items)).run script).result = .ok o →
      o.halted = false) :
    let ran (stages : Pipeline) := ((run registry ctx stages (.ofList items)).run script).result
    let objects := items.filter Item.isObject
    let kept := items.filter (Condition.keeps conditions)
    ran [stage] = .ok (.completed kept false) ∧
      (∀ chain, List.Forall₂ (fun word stage => stage.Filters [word]) words chain →
        ran chain = .ok (.completed kept false)) ∧
      (∀ others (other : Invocation), other.Filters others → (∀ w, w ∈ others ↔ w ∈ words) →
        ran [other] = .ok (.completed kept false)) ∧
      kept.Sublist items ∧ (∀ x ∈ kept, x.isObject = true) ∧
      ∀ path expected, objects.partition (Condition.keeps [⟨path, false, expected⟩]) =
        (items.filter (Condition.keeps [⟨path, false, expected⟩]),
          items.filter (Condition.keeps [⟨path, true, expected⟩])) := by
  intro ran objects kept
  have hran := run_filters hbuiltin ctx hstage hne hparse items script
  have hsole : Item.soleApproval? kept = none :=
    Outcome.soleApproval?_of_reached Nat.one_pos (hruns _ hran)
  have hreached (stages : Nat) : Outcome.reached stages kept false = .completed kept false :=
    Outcome.reached_of_none hsole
  refine ⟨?_, fun chain hchain => ?_, fun others other hother hsame => ?_, List.filter_sublist,
    fun x hx => Condition.isObject_of_keeps (List.mem_filter.mp hx).2,
    fun path expected => Condition.partition_objects ⟨path, false, expected⟩ items⟩
  · rw [← hreached, ← hran]
  · rw [← hreached, ← run_filters_chain hbuiltin ctx hchain hne hparse items script]
  · have hvalid : ∀ w ∈ others, ∃ c, Condition.parse w = .ok c := fun w hw =>
      exists_mapM_iff.mp ⟨conditions, hparse⟩ w ((hsame w).mp hw)
    obtain ⟨read, hread⟩ := exists_mapM_iff.mpr hvalid
    have hmem (c : Condition) : c ∈ read ↔ c ∈ conditions := by
      simp only [Condition.mem_iff_of_mapM hread, Condition.mem_iff_of_mapM hparse, hsame]
    have hothers : others ≠ [] := by
      rintro rfl
      obtain ⟨w, hw⟩ := List.exists_mem_of_ne_nil words hne
      exact List.not_mem_nil ((hsame w).mpr hw)
    have hrun := run_filters hbuiltin ctx hother hothers hread items script
    rw [Condition.keeps_congr hmem, hreached] at hrun
    exact hrun

/-- Two conditions on three items: of the two objects one has no second field. -/
theorem two_words_conjoin :
    let registry : Registry := Registry.builtin none
    let item (ms : List (String × Json)) : Item := .value (.obj ms)
    let items := [item [("a", .int 1)], .value (.int 1), item [("a", .int 1), ("b", .str "x")]]
    let filter (words : List String) : Invocation := ⟨"where", [("_", .many words)]⟩
    let ran (stages : Pipeline) :=
      ((run registry ⟨.tool, [], false⟩ stages (.ofList items)).run .empty).result
    ran [filter ["a=1", "b!=x"]] = .ok (.completed [item [("a", .int 1)]] false) ∧
      ran [filter ["a=1"], filter ["b!=x"]] = ran [filter ["a=1", "b!=x"]] ∧
      ran [filter ["b!=x", "a=1", "b!=x"]] = ran [filter ["a=1", "b!=x"]] := by
  intro registry item items filter ran
  have hfilters (words : List String) : (filter words).Filters words := ⟨rfl, rfl⟩
  have hbuiltin : builtinCommands none ⊆ registry.commands := fun c hc => hc
  have hparse : ["a=1", "b!=x"].mapM Condition.parse =
      .ok [⟨"a", false, "1"⟩, ⟨"b", true, "x"⟩] := rfl
  have hran : ran [filter ["a=1", "b!=x"]] = .ok (.completed [item [("a", .int 1)]] false) := rfl
  have hruns : ∀ o, ran [filter ["a=1", "b!=x"]] = .ok o → o.halted = false := by
    intro o ho
    rw [hran] at ho
    cases ho
    rfl
  obtain ⟨hone, hchain, hothers, -⟩ := where_conjoins hbuiltin ⟨.tool, [], false⟩ (hfilters _)
    (List.cons_ne_nil _ _) hparse items .empty hruns
  refine ⟨hran, ?_, ?_⟩
  · exact (hchain _ (.cons (hfilters _) (.cons (hfilters _) .nil))).trans hone.symm
  · exact (hothers _ _ (hfilters ["b!=x", "a=1", "b!=x"]) (by simp [or_comm])).trans hone.symm

end Pipeline

end Sluice
