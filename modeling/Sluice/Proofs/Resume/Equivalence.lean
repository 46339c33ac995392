import Sluice.Proofs.Json.Paths
import Sluice.Proofs.Resume.Rerun
import Sluice.Proofs.Run.Selection

/-!
How far resuming is the same as going on. It is for all pipelines whose conditions behind the halt are
order free and over all items that fit into a token. Any other condition expects the text of some
value in one order, so a gate before it and an item with this value, or with the value in another
order, under the path of the condition are enough to make the two runs differ.
-/

namespace Sluice

namespace Json

/-- An object of one member stands for no request. -/
theorem approval?_nest {keys : List String} (h : keys ≠ []) (v : Json) :
    (Item.value (nest keys v)).approval? = none := by
  obtain ⟨k, keys, rfl⟩ := List.exists_cons_of_ne_nil h
  rw [nest_cons, Item.approval?]
  by_cases hk : "items" = k
  · rw [if_neg]
    simp [get?, ← hk, List.lookup_cons]
  · have hitems : (obj [(k, nest keys v)]).get? "items" = none := by
      simp [get?, List.lookup_cons, beq_eq_false_iff_ne.mpr hk]
    rw [hitems]
    split <;> rfl

/-- The value in an order that is not the one of its keys, if it has another. -/
def unsorted (w : Json) : Json :=
  if w.sorted = w then w.reversed else w

theorem same_unsorted {w : Json} (h : w.wellFormed = true) : w.Same w.unsorted := by
  unfold unsorted
  split
  · exact same_reversed h
  · exact .refl h

end Json

namespace Condition

variable {c : Condition}

theorem ne_str_of_orderless {v : Json} (h : v.orderless = false) (s : String) : v ≠ .str s := by
  rintro rfl
  cases h

/-- Values that are no texts themselves have different texts. -/
theorem textOf_injective {v w : Json} (hv : v.wellFormed = true) (hw : w.wellFormed = true)
    (hstrV : ∀ s, v ≠ .str s) (hstrW : ∀ s, w ≠ .str s) (h : textOf v = textOf w) : v = w := by
  rw [textOf_eq hstrV, textOf_eq hstrW, Json.text, Json.text, String.ofList_inj] at h
  exact Json.write_injective Json.compact_lawful hv hw (.inl Json.compact_names)
    (.inl Json.compact_names) h

/-- Different orders of a value have different texts. -/
theorem eq_of_same {v w : Json} (h : v.Same w) (horder : v.orderless = false)
    (htext : textOf v = textOf w) : v = w := by
  refine textOf_injective h.1 h.2.1 (ne_str_of_orderless horder) ?_ htext
  rintro s rfl
  exact ne_str_of_orderless horder s h.symm.str

/-- A condition that expects one order of a value tells its unsorted form from the sorted one. -/
theorem unsorted_told {w : Json} (hwell : w.wellFormed = true) (htext : textOf w = c.expected)
    (horder : w.orderless = false) :
    ¬ (textOf w.unsorted = c.expected ↔ textOf w.unsorted.sorted = c.expected) := by
  unfold Json.unsorted
  split
  · rename_i hsorted
    -- The expected text is the sorted one already: any other order is not expected.
    intro hiff
    have hsame := Json.same_reversed hwell
    rw [← hsame.2.2, hsorted] at hiff
    have hreversed := eq_of_same hsame horder (htext.trans (hiff.mpr htext).symm)
    rw [Json.orderless_of_reversed hwell hreversed.symm] at horder
    cases horder
  · rename_i hsorted
    intro hiff
    apply hsorted
    exact (eq_of_same (Json.same_sorted hwell) horder (htext.trans (hiff.mp htext).symm)).symm

theorem keeps_nest (c : Condition) (v : Json) :
    keeps [c] (.value (.nest (Json.pathKeys c.path) v)) = true ↔
      (textOf v = c.expected ↔ c.negated = false) := by
  obtain ⟨k, keys, hkeys⟩ := List.exists_cons_of_ne_nil (Json.pathKeys_ne_nil c.path)
  have hholds : c.holds (.nest (Json.pathKeys c.path) v) =
      ((textOf v == c.expected) != c.negated) := by
    rw [holds, Json.atPath, Json.descend_nest]
  rw [hkeys, Json.nest_cons] at hholds ⊢
  rw [keeps, List.all_cons, List.all_nil, Bool.and_true, hholds]
  cases hnegated : c.negated <;> simp

end Condition

namespace Pipeline

variable {limit : Option Binary64}

def whereStage (word : String) : Invocation :=
  ⟨"where", [(Args.bareName, .many [word])]⟩

def gatedWhere (word : String) : Pipeline :=
  [⟨"approve", Args.empty⟩, whereStage word]

theorem gatedWhere_lawful (word : String) : (gatedWhere word).Lawful := by
  refine ⟨?_, Json.lt_pow_maxDigits (show 2 < 10 by omega)⟩
  simp [gatedWhere, whereStage, Args.Lawful, Args.empty]

/-- The gate halts for a tool with whatever items it is given. -/
theorem run_gatedWhere (word : String) {ctx : Context} (hmode : ctx.mode = .tool)
    (items : List Item) (script : Script) :
    ((run (Registry.builtin limit) ctx (gatedWhere word) (.ofList items)).run script).result =
      .ok (.haltedOn 0 ⟨items, Approve.defaultPrompt⟩) := by
  have hfound : Plan.builtin? limit "approve" = some Plan.approve := rfl
  have hprompt : Approve.prompt Args.empty = Approve.defaultPrompt := rfl
  rw [run, gatedWhere, runFrom_builtin_cons, hfound]
  simp only [Plan.approve, hmode, Action.apply, Stream.collect_ofProgram, Stream.collect_ofList,
    Program.bind_pure, ↓reduceIte, Item.soleApproval?, Item.approval?, hprompt]
  rfl

/-- A `where` with one word keeps the items that meet its condition. -/
theorem run_whereStage (limit : Option Binary64) {word : String} {c : Condition}
    (hparse : Condition.parse word = .ok c) (ctx : Context) {x : Item} (hnone : x.approval? = none)
    (script : Script) :
    ((run (Registry.builtin limit) ctx [whereStage word] (.ofList [x])).run script).result =
      .ok (.completed (if Condition.keeps [c] x then [x] else []) false) := by
  have hstage : (whereStage word).Filters [word] := ⟨rfl, rfl⟩
  have hwords := mapM_eq_ok_iff.mpr (.cons hparse .nil)
  have hkept : [x].filter (Condition.keeps [c]) = if Condition.keeps [c] x then [x] else [] :=
    List.filter_cons
  have hsole : Item.soleApproval? (if Condition.keeps [c] x then [x] else []) = none := by
    split
    · exact hnone
    · rfl
  have hrun := run_filters (List.Subset.refl (Registry.builtin limit).commands) ctx hstage
    (List.cons_ne_nil _ _) hwords [x] script
  rw [hrun, hkept, Outcome.reached_of_none hsole]

theorem eq_of_same_whereStage {p : Pipeline} {word : String} (h : p.Same [whereStage word]) :
    p = [whereStage word] := by
  cases h with
  | @cons stage _ _ _ hstage hrest =>
    cases hrest
    obtain ⟨name, args⟩ := stage
    obtain rfl : name = "where" := hstage.1
    obtain rfl : args = [(Args.bareName, .many [word])] := List.perm_singleton.mp hstage.2
    rfl

/-- What is left of a run of `gatedWhere` that halted over a value. -/
def gatedRest (word : String) (v : Json) : Continuation :=
  ⟨gatedWhere word, 1, [.value v], Approve.defaultPrompt, Nat.le_add_left 1 1⟩

/-- The token of `gatedWhere` leaves the `where` as it is, with the approved value sorted. -/
theorem reopen_gatedWhere (key : Option (List UInt8)) {word : String} {v : Json}
    (hwell : v.wellFormed = true) (hfinite : v.allFinite = true)
    (hcarried : (gatedRest word v).Carried) :
    ∃ c, Token.reopen key (gatedWhere word) (.haltedOn 0 ⟨[.value v], Approve.defaultPrompt⟩) =
      .ok c ∧ c.remaining = [whereStage word] ∧ c.items = [.value v.sorted] := by
  have hitems : ∀ x ∈ [Item.value v], x.WellFormed := by
    rw [List.forall_mem_singleton]
    exact hwell
  obtain ⟨c, hreopen, hrest, hkept⟩ := Token.reopen_haltedOn key (gatedWhere_lawful word)
    (a := ⟨[.value v], Approve.defaultPrompt⟩) (Nat.le_add_left 1 1) hitems hcarried
  refine ⟨c, hreopen, eq_of_same_whereStage hrest, ?_⟩
  rw [hkept, List.map_singleton, Item.stored, Item.toJson, Json.finite_of_allFinite hfinite]

/-- The item that a condition tells apart, for a value whose text it expects: under the path of the
condition the value, unsorted. -/
def toldItem (c : Condition) (w : Json) : Json :=
  .nest (Json.pathKeys c.path) w.unsorted

/-- Behind a gate, a condition that expects one order of a value keeps an item in a resumed run and
drops it in a direct one, or the other way round. -/
theorem toldItem_resumesApart (limit : Option Binary64) (key : Option (List UInt8)) {word : String}
    {c : Condition} (hparse : Condition.parse word = .ok c) {w : Json} (hwell : w.wellFormed = true)
    (hfinite : w.allFinite = true) (htext : Condition.textOf w = c.expected)
    (horder : w.orderless = false) (hcarried : (gatedRest word (toldItem c w)).Carried) :
    ResumesApart limit key (gatedWhere word) 0
      ⟨[.value (toldItem c w)], Approve.defaultPrompt⟩ := by
  have hsame := Json.same_unsorted hwell
  have hne := Json.pathKeys_ne_nil c.path
  have hwellNest := Json.wellFormed_nest (Json.pathKeys c.path) hsame.2.1
  have hfiniteNest := Json.allFinite_nest (Json.pathKeys c.path) (hsame.finite_eq ▸ hfinite)
  obtain ⟨restored, hreopen, hremaining, hitems⟩ :=
    reopen_gatedWhere key hwellNest hfiniteNest hcarried
  refine ⟨restored, hreopen, fun ctx _ script hresult => ?_⟩
  have hdrop : (gatedWhere word).drop (0 + 1) = [whereStage word] := rfl
  rw [resumed, direct, hremaining, hitems, hdrop, toldItem, Json.sorted_nest,
    run_whereStage limit hparse ctx (Json.approval?_nest hne w.unsorted.sorted),
    run_whereStage limit hparse ctx (Json.approval?_nest hne w.unsorted)] at hresult
  cases hresult with
  | ok houtcome =>
    have hlength := houtcome.items.length_eq
    simp only [Outcome.completed] at hlength
    have hkeeps : Condition.keeps [c]
        (.value (.nest (Json.pathKeys c.path) w.unsorted.sorted)) = true ↔
        Condition.keeps [c] (.value (.nest (Json.pathKeys c.path) w.unsorted)) = true := by
      split at hlength <;> split at hlength <;> simp_all
    rw [Condition.keeps_nest, Condition.keeps_nest] at hkeeps
    apply Condition.unsorted_told hwell htext horder
    grind

/-- A run of a tool halts over finite JSON values. If every `where` behind the halt is order free and
what is left fits into a token, then resuming it through its token is the same as running the stages
behind the halt on these values: the same failure, or items that differ in the order of members at
most, with the same halt and the same effects. Where a value has more levels than a token carries there
is no token. Order freedom is needed: a condition without it expects the text of a value in one order,
and behind a gate it gives another result for an item with this value, if that fits into a token. -/
theorem resumes_alike_iff_order_free (limit : Option Binary64) (key : Option (List UInt8)) :
    (∀ (ctx : Context) (pipeline : Pipeline) (source : Stream) (script : Script) (stage : Nat)
        (values : List Json) (prompt : String), ctx.mode = .tool → pipeline.Lawful →
        ((run (Registry.builtin limit) ctx pipeline source).run script).result =
          .ok (.haltedOn stage ⟨values.map .value, prompt⟩) →
        (∀ v ∈ values, v.wellFormed = true ∧ v.allFinite = true) →
        (∀ s ∈ pipeline.drop (stage + 1), s.OrderFree) →
        ∃ hstage : stage + 1 ≤ pipeline.length,
          (Continuation.Carried ⟨pipeline, stage + 1, values.map .value, prompt, hstage⟩ →
            ResumesAlike limit key pipeline stage ⟨values.map .value, prompt⟩) ∧
          ((∃ v ∈ values, Json.maxLevels < v.height) →
            ∃ f, Token.ofOutcome key pipeline (.haltedOn stage ⟨values.map .value, prompt⟩) =
              .error f)) ∧
    ∀ (word : String) (c : Condition), Condition.parse word = .ok c → c.orderFree = false →
      ∃ w : Json, w.wellFormed = true ∧ w.allFinite = true ∧ Condition.textOf w = c.expected ∧
        w.orderless = false ∧
        (∀ ctx : Context, ctx.mode = .tool → ∀ script,
          ((run (Registry.builtin limit) ctx (gatedWhere word) (.ofList [.value (toldItem c w)])).run
            script).result = .ok (.haltedOn 0 ⟨[.value (toldItem c w)], Approve.defaultPrompt⟩)) ∧
        ((gatedRest word (toldItem c w)).Carried →
          ResumesApart limit key (gatedWhere word) 0
            ⟨[.value (toldItem c w)], Approve.defaultPrompt⟩) := by
  constructor
  · intro ctx pipeline source script stage values prompt _ hlawful hrun hvalues hfree
    have hwithin := (runFrom_halts_within _ pipeline 0 source false).of_result hrun stage _ rfl
    rw [Nat.zero_add] at hwithin
    refine ⟨hwithin, resumesAlike_of_orderFree key hlawful hwithin hvalues hfree, ?_⟩
    rintro ⟨v, hv, hhigh⟩
    rw [Token.ofOutcome_haltedOn key hwithin]
    cases hissue : Token.issue key ⟨pipeline, stage + 1, values.map .value, prompt, hwithin⟩ with
    | error f => exact ⟨f, rfl⟩
    | ok token =>
      have hlevels := (Token.carried_of_issue hissue).1.levels (.value v) (List.mem_map_of_mem hv)
      exact absurd hlevels (Nat.not_le.mpr hhigh)
  · intro word c hparse hfree
    obtain ⟨w, hwell, hfinite, htext, horder⟩ := Condition.exists_of_not_orderFree hfree
    exact ⟨w, hwell, hfinite, htext, horder,
      fun ctx hmode script => run_gatedWhere word hmode _ script,
      toldItem_resumesApart limit key hparse hwell hfinite htext horder⟩

/-- A condition on a number is order free. A condition on an object of two members is not, and an
object with the other order under its path tells. -/
theorem resumes_alike_for_number :
    ResumesAlike none none (gatedWhere "n=1") 0
        ⟨[Json.obj [("n", .int 1), ("m", .str "x")]].map .value, Approve.defaultPrompt⟩ ∧
      ResumesApart none none (gatedWhere "m=\x7b\"b\":1,\"a\":2\x7d") 0
        ⟨[.value (.obj [("m", .obj [("b", .int 1), ("a", .int 2)])])], Approve.defaultPrompt⟩ := by
  constructor
  · obtain ⟨_, halike, -⟩ := (resumes_alike_iff_order_free none none).1 ⟨.tool, [], false⟩
      (gatedWhere "n=1") (.ofList [.value (.obj [("n", .int 1), ("m", .str "x")])]) .empty 0
      [.obj [("n", .int 1), ("m", .str "x")]] Approve.defaultPrompt rfl (gatedWhere_lawful _)
      (run_gatedWhere "n=1" rfl _ _) (by
        rw [List.forall_mem_singleton]
        exact ⟨by rfl, by rfl⟩) (by
        intro s hs _ word hword c hparse
        obtain rfl : s = whereStage "n=1" := List.mem_singleton.mp hs
        obtain rfl : word = "n=1" := List.mem_singleton.mp hword
        obtain rfl : c = ⟨"n", false, "1"⟩ := (Except.ok.inj hparse).symm
        rfl)
    have hcarried : (gatedRest "n=1" (.obj [("n", .int 1), ("m", .str "x")])).Carried :=
      ⟨by decide, by decide, by decide⟩
    exact halike hcarried
  · have hparse : Condition.parse "m=\x7b\"b\":1,\"a\":2\x7d" =
        .ok ⟨"m", false, "\x7b\"b\":1,\"a\":2\x7d"⟩ := by
      rfl
    have hnotfree : (⟨"m", false, "\x7b\"b\":1,\"a\":2\x7d"⟩ : Condition).orderFree = false := by
      rw [Bool.eq_false_iff]
      intro hfree
      have horderless := Condition.orderless_of_expected hfree
        (v := .obj [("b", .int 1), ("a", .int 2)]) (by rfl) (by rfl) (by rfl)
      cases horderless
    obtain ⟨w, hwell, -, htext, horder, -, hapart⟩ :=
      (resumes_alike_iff_order_free none none).2 _ _ hparse hnotfree
    obtain rfl : w = .obj [("b", .int 1), ("a", .int 2)] :=
      Condition.textOf_injective hwell (by rfl) (Condition.ne_str_of_orderless horder)
        (by rintro s ⟨⟩) (htext.trans (by rfl))
    exact hapart ⟨by decide, by decide, by decide⟩

/-- The direct run drops an object whose value has the text that the condition rules out. The resumed
run keeps it, since the text is another one once the members are in order. -/
theorem resumed_run_keeps_dropped_item :
    let word := "m!=\x7b\"b\":1,\"a\":2\x7d"
    let v : Json := .obj [("m", .obj [("b", .int 1), ("a", .int 2)])]
    let ctx : Context := ⟨.tool, [], false⟩
    let asked : Approval := ⟨[.value v], Approve.defaultPrompt⟩
    ((run (Registry.builtin none) ctx (gatedWhere word) (.ofList [.value v])).run .empty).result =
        .ok (.haltedOn 0 asked) ∧
      (direct none ctx (gatedWhere word) 0 asked .empty).result = .ok (.completed [] false) ∧
      ∃ c, Token.reopen none (gatedWhere word) (.haltedOn 0 asked) = .ok c ∧
        (resumed none ctx c .empty).result = .ok (.completed [.value v.sorted] false) := by
  intro word v ctx asked
  have hparse : Condition.parse "m!=\x7b\"b\":1,\"a\":2\x7d" =
      .ok ⟨"m", true, "\x7b\"b\":1,\"a\":2\x7d"⟩ := by
    rfl
  have hwell : v.wellFormed = true := by
    rfl
  have hdropped : Condition.keeps [⟨"m", true, "\x7b\"b\":1,\"a\":2\x7d"⟩] (.value v) = false := by
    rfl
  have hkept :
      Condition.keeps [⟨"m", true, "\x7b\"b\":1,\"a\":2\x7d"⟩] (.value v.sorted) = true := by
    rfl
  have hcarried : (gatedRest word v).Carried := ⟨by decide, by decide, by decide⟩
  obtain ⟨c, hreopen, hremaining, hitems⟩ := reopen_gatedWhere none hwell rfl hcarried
  refine ⟨run_gatedWhere word rfl _ _, ?_, c, hreopen, ?_⟩
  · have hrun := run_whereStage none hparse ctx (x := .value v) rfl .empty
    rw [hdropped] at hrun
    exact hrun
  · have hrun := run_whereStage none hparse ctx (x := .value v.sorted) rfl .empty
    rw [hkept] at hrun
    rw [resumed, hremaining, hitems]
    exact hrun

end Pipeline

end Sluice
