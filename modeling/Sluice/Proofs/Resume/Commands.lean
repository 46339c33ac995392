import Sluice.Proofs.Command.Filtering
import Sluice.Proofs.Json.RoundTrip
import Sluice.Proofs.Resume.Agreement

/-!
The commands of a tool on sources that agree. What a stage decides does not depend on the order in
which its arguments are kept, and what it then does to items keeps them in agreement. The one
exception is `where`: it compares values by their text, and the text of an object shows the order of
its members. A condition is order free if no text with a choice of order is the expected one.
-/

namespace Sluice

section Arguments

variable {a b : Args}

theorem Args.texts_perm (h : a.Perm b) (ha : a.Lawful) (name : String) :
    a.texts name = b.texts name := by
  rw [texts, texts, lookup_perm h ha]

/-- The arguments of a stage may be kept in any order. -/
theorem Plan.perm {limit : Option Binary64} {name : String} {r : Reader}
    (hr : builtin? limit name = some r) (h : a.Perm b) (ha : a.Lawful) (stage : Nat)
    (ctx : Context) : r stage ctx a = r stage ctx b := by
  have htexts := Args.texts_perm h ha
  have hflag (name : String) : a.flag? name = b.flag? name := by
    rw [Args.flag?, Args.flag?, htexts]
  have hfilled (name : String) : a.filled? name = b.filled? name := by
    rw [Args.filled?, Args.filled?, hflag]
  have henabled (name : String) : a.enabled name = b.enabled name := by
    rw [Args.enabled, Args.enabled, hflag]
  have hpositional : a.positional = b.positional := htexts Args.bareName
  have hinteger (name : String) (n : Int) : a.integer name n = b.integer name n := by
    rw [Args.integer, Args.integer, hflag]
  rcases builtin?_cases hr with ⟨-, rfl⟩ | ⟨-, rfl⟩ | ⟨-, rfl⟩ | ⟨-, rfl⟩ | ⟨-, rfl⟩ | ⟨-, rfl⟩ |
    ⟨-, rfl⟩ | ⟨-, rfl⟩
  · rw [exec, exec, Exec.commandWords, Exec.commandWords, hflag, henabled, hpositional]
  · rfl
  · rw [head, head, Head.count, Head.count, hflag, hpositional, hinteger]
  · rw [pick, pick, Pick.fields, Pick.fields, hfilled, hpositional]
  · rw [filter, filter, hpositional]
  · rw [table, table, hinteger]
  · rw [approve, approve, Approve.prompt, Approve.prompt, hfilled, hpositional]
  · have hsetting (flag variableName : String) :
        Invoke.setting ctx a flag variableName = Invoke.setting ctx b flag variableName := by
      rw [Invoke.setting, Invoke.setting, hfilled]
    have harguments : Invoke.toolArguments a = Invoke.toolArguments b := by
      rw [Invoke.toolArguments, Invoke.toolArguments, hflag]
    have hcall : Invoke.call ctx a = Invoke.call ctx b := by
      rw [Invoke.call, Invoke.call, hsetting "url", hsetting "token", hfilled, hfilled, harguments]
    rw [invoke, invoke, hcall]

end Arguments

namespace Condition

/-- Whether the expected text is that of a finite value with a choice of order. -/
def orderFree (c : Condition) : Bool :=
  match Json.read c.expected.toList with
  | .ok v => v.orderless || !v.allFinite || Json.text Json.compact v != c.expected
  | .error _ => true

theorem textOf_eq {v : Json} (h : ∀ s, v ≠ .str s) : textOf v = Json.text Json.compact v := by
  cases v with
  | str s => exact absurd rfl (h s)
  | _ => rfl

/-- The value with the expected text of an order free condition has no other order. -/
theorem orderless_of_expected {c : Condition} (hfree : c.orderFree = true) {v : Json}
    (hwell : v.wellFormed = true) (hfinite : v.allFinite = true) (htext : textOf v = c.expected) :
    v.orderless = true := by
  by_cases hstr : ∃ s, v = .str s
  · obtain ⟨s, rfl⟩ := hstr
    rfl
  · rw [textOf_eq fun s heq => hstr ⟨s, heq⟩] at htext
    have hread : Json.read c.expected.toList = .ok v := by
      rw [← htext, Json.text, String.toList_ofList]
      exact Json.read_write Json.compact_lawful hwell (.inr hfinite)
    rw [orderFree, hread] at hfree
    simpa [hfinite, htext] using hfree

/-- The other way round: a condition that is not order free expects the text of a value with a
choice of order. -/
theorem exists_of_not_orderFree {c : Condition} (h : c.orderFree = false) :
    ∃ v : Json, v.wellFormed = true ∧ v.allFinite = true ∧ textOf v = c.expected ∧
      v.orderless = false := by
  unfold orderFree at h
  split at h
  · rename_i v hread
    simp only [Bool.or_eq_false_iff, Bool.not_eq_false', bne_eq_false_iff_eq] at h
    obtain ⟨⟨horderless, hfinite⟩, htext⟩ := h
    refine ⟨v, Json.read_wellFormed hread, hfinite, ?_, horderless⟩
    rw [textOf_eq, htext]
    rintro s rfl
    cases horderless
  · cases h

variable {c : Condition}

/-- Values in agreement have the expected text both or neither. -/
theorem textOf_expected (hfree : c.orderFree = true) {a b : Json} (h : a.Alike b) :
    textOf a = c.expected ↔ textOf b = c.expected := by
  have hfinite : b.allFinite = true := h.same.finite_eq ▸ h.finite
  constructor
  · intro ha
    rwa [← h.same.eq_of_orderless (orderless_of_expected hfree h.same.1 h.finite ha)]
  · intro hb
    rwa [← h.same.symm.eq_of_orderless (orderless_of_expected hfree h.same.2.1 hfinite hb)]

theorem holds_alike (hfree : c.orderFree = true) {a b : Json} (h : a.Alike b) :
    c.holds a = c.holds b := by
  rw [holds, holds, Json.atPath, Json.atPath]
  have hvalues := h.descend (Json.pathKeys c.path)
  generalize a.descend (Json.pathKeys c.path) = v at hvalues
  generalize b.descend (Json.pathKeys c.path) = w at hvalues
  cases hvalues with
  | none => rfl
  | some hvw =>
    simp only
    rw [Bool.eq_iff_iff.mpr (beq_iff_eq.trans ((textOf_expected hfree hvw).trans beq_iff_eq.symm))]

theorem keeps_agree {conditions : List Condition} (hfree : ∀ c ∈ conditions, c.orderFree = true)
    {x y : Item} (h : x.Agree y) : keeps conditions x = keeps conditions y := by
  cases h with
  | refl => rfl
  | request => rfl
  | @value a b h =>
    cases h.paired with
    | equal => rfl
    | arrays => rfl
    | objects ms ms' =>
      rw [keeps, keeps, Bool.eq_iff_iff, List.all_eq_true, List.all_eq_true]
      exact forall₂_congr fun c hc => by rw [holds_alike (hfree c hc) h]

end Condition

namespace Pick

theorem sameMembers (fields : List String) {a b : Json} (h : a.Alike b) :
    Json.SameMembers (fields.filterMap fun name => (a.atPath name).map fun v => (name, v))
      (fields.filterMap fun name => (b.atPath name).map fun v => (name, v)) := by
  induction fields with
  | nil => exact .nil
  | cons name fields ih =>
    have hvalues := h.descend (Json.pathKeys name)
    rw [List.filterMap_cons, List.filterMap_cons, Json.atPath, Json.atPath]
    generalize a.descend (Json.pathKeys name) = v at hvalues
    generalize b.descend (Json.pathKeys name) = w at hvalues
    cases hvalues with
    | none => exact ih
    | some hvw => exact .cons ⟨rfl, hvw.same⟩ ih

theorem members_alike (fields : List String) {a b : Json} (h : a.Alike b) :
    (Json.obj (members fields a)).Alike (.obj (members fields b)) := by
  obtain ⟨hnodup, hmem⟩ :=
    Json.distinct_spec (fields.filterMap fun name => (a.atPath name).map fun v => (name, v))
  refine ⟨(sameMembers fields h).distinct.same hnodup, ?_⟩
  rw [Json.allFinite_obj]
  intro kv hkv
  obtain ⟨name, -, hname⟩ := List.mem_filterMap.mp (hmem kv hkv)
  obtain ⟨v, hv, rfl⟩ := Option.map_eq_some_iff.mp hname
  exact Json.allFinite_of_descend h.finite hv

theorem item_agree (fields : List String) {x y : Item} (h : x.Agree y) :
    (item fields x).Agree (item fields y) := by
  cases h with
  | refl => exact .refl _
  | request hxs prompt => exact .request hxs prompt
  | @value a b h =>
    cases h.paired with
    | equal => exact .refl _
    | arrays => exact .value h
    | objects => exact .value (members_alike fields h)

end Pick

theorem Agreed.refl {α : Type} {rel : α → α → Prop} (hrel : ∀ a, rel a a) (r : Except Failure α) :
    Agreed rel r r := by
  cases r with
  | ok a => exact .ok (hrel a)
  | error f => exact .error f

theorem Decode.items_agree {x y : Item} (h : x.Agree y) :
    Agreed Items.Agree (items x) (items y) := by
  cases h with
  | refl => exact .refl Items.Agree.refl _
  | request hxs prompt => exact .ok (.cons (.request hxs prompt) .nil)
  | @value a b h =>
    cases h.paired with
    | equal => exact .refl Items.Agree.refl _
    | arrays => exact .ok (.cons (.value h) .nil)
    | objects => exact .ok (.cons (.value h) .nil)

def Invocation.OrderFree (stage : Invocation) : Prop :=
  stage.name = "where" → ∀ word ∈ stage.args.positional, ∀ c, Condition.parse word = .ok c →
    c.orderFree = true

/-- For a tool, a stage keeps sources in agreement. -/
theorem Plan.agree {limit : Option Binary64} {stage : Invocation} {r : Reader} {index : Nat}
    {ctx : Context} {p : Plan} (hmode : ctx.mode = .tool) (hfree : stage.OrderFree)
    (hr : builtin? limit stage.name = some r) (hp : r index ctx stage.args = .ok p) {s t : Stream}
    (h : s.Agree t) : (p.action.apply s).Agree (p.action.apply t) := by
  have hdecided := decided hr hp
  generalize hname : stage.name = name at hdecided
  cases hdecided with
  | exec =>
    refine Stream.agree_ofProgram (h.collect.bind fun _ _ _ => ?_)
    exact Program.agree_refl Items.Agree.refl _
  | json => exact h.expand fun x y hxy => Decode.items_agree hxy
  | head => exact h.take _
  | pick => exact h.expand fun x y hxy => .ok (.cons (Pick.item_agree _ hxy) .nil)
  | @filter conditions hparse =>
    have hconditions : ∀ c ∈ conditions, c.orderFree = true := by
      intro c hc
      obtain ⟨word, hmem, hword⟩ := (Condition.mem_iff_of_mapM hparse).mp hc
      exact hfree hname word hmem c hword
    apply h.expand
    intro x y hxy
    rw [keep, keep, Condition.keeps_agree hconditions hxy]
    split
    · exact .ok (.cons hxy .nil)
    · exact .ok .nil
  | pass => exact h
  | print hhuman =>
    rw [hmode] at hhuman
    cases hhuman
  | request =>
    refine Stream.agree_ofProgram (h.collect.bind fun xs ys hxs => ?_)
    exact .pure (.cons (.request hxs _) .nil)
  | ask hhuman =>
    rw [hmode] at hhuman
    cases hhuman
  | invoke =>
    refine Stream.agree_ofProgram (h.collect.bind fun _ _ _ => ?_)
    exact Program.agree_refl Items.Agree.refl _

end Sluice
