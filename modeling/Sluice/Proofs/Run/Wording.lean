import Sluice.Proofs.Json.Paths
import Sluice.Proofs.Run.Selection
import Sluice.Proofs.Text.Cut

/-!
What a single word of a `where` keeps. A word is a path, an operator and a text, and the operator is
looked for in the whole of it. An unequal sign behind the path is always found there. An equal sign
is passed over as soon as the text has an unequal sign of its own: then the path is longer than it
was meant to be, and what is kept are the objects that differ under it.
-/

namespace Sluice

/-- Whether an item is an object with a value at a path that has a text: a string has itself, any
other value its JSON text without blanks. -/
def Item.hasText (path text : String) : Item → Bool
  | .value (.obj ms) => ((Json.obj ms).atPath path).any fun v => Condition.textOf v == text
  | _ => false

namespace Condition

variable {path text : String}

theorem keeps_equal (path text : String) : keeps [⟨path, false, text⟩] = Item.hasText path text := by
  funext x
  unfold keeps
  split
  · rename_i ms
    rw [List.all_cons, List.all_nil, Bool.and_true, holds, Bool.bne_false, Item.hasText]
    cases (Json.obj ms).atPath path <;> rfl
  · rename_i hvalue
    unfold Item.hasText
    split
    · exact absurd rfl (hvalue _)
    · rfl

theorem keeps_unequal (path text : String) :
    keeps [⟨path, true, text⟩] = fun x => x.isObject && !x.hasText path text := by
  funext x
  rw [Bool.and_comm, ← keeps_equal]
  exact keeps_opposite ⟨path, false, text⟩ x

/-- No unequal sign begins in front of an equal sign that has no exclamation mark before it. -/
theorem not_infix_behind {front back : List Char} (hmark : '!' ∉ front)
    (hback : ¬ ['!', '='] <:+: back) : ¬ ['!', '='] <:+: front ++ '=' :: back := by
  have hsign : Text.cutAt? ['!', '='] ('=' :: back) = none := by
    rw [Text.cutAt?, (Text.cutAt?_eq_none_iff (List.cons_ne_nil _ _)).mpr hback]
    rfl
  rw [← Text.cutAt?_eq_none_iff (List.cons_ne_nil _ _), Text.cutAt?_append_of_not_mem hmark, hsign]
  rfl

/-- The first unequal sign of a word is its operator. -/
theorem parse_unequal (hne : path ≠ "") (hpath : ¬ ['!', '='] <:+: path.toList) (text : String) :
    parse (path ++ "!=" ++ text) = .ok ⟨path, true, text⟩ := by
  have hword : (path ++ "!=" ++ text).toList = path.toList ++ '!' :: '=' :: text.toList := by
    simp
  have hcut := Text.cutAt?_append_pair (by decide) hpath text.toList
  simp only [parse, hword, hcut, List.isEmpty_iff, String.toList_eq_nil_iff, if_neg hne,
    String.ofList_toList]

/-- The first equal sign is the operator where there is no unequal sign. -/
theorem parse_equal (hne : path ≠ "") (hmark : '!' ∉ path.toList) (hsign : '=' ∉ path.toList)
    (htext : ¬ ['!', '='] <:+: text.toList) :
    parse (path ++ "=" ++ text) = .ok ⟨path, false, text⟩ := by
  have hword : (path ++ "=" ++ text).toList = path.toList ++ '=' :: text.toList := by
    simp
  have hunequal := (Text.cutAt?_eq_none_iff (List.cons_ne_nil _ _)).mpr
    (not_infix_behind hmark htext)
  have hequal : Text.cutAt? ['='] (path.toList ++ '=' :: text.toList) = _ :=
    Text.cutAt?_append hsign
  simp only [parse, hword, hunequal, hequal, List.isEmpty_iff, String.toList_eq_nil_iff, if_neg hne,
    String.ofList_toList]

end Condition

namespace Pipeline

variable {limit : Option Binary64} {registry : Registry}

/-- A `where` with this word alone keeps the items of a kind, whatever items it is given. -/
def Selects (registry : Registry) (ctx : Context) (word : String) (kind : Item → Bool) : Prop :=
  ∀ (stage : Invocation) (items : List Item) (script : Script), stage.Filters [word] →
    ((run registry ctx [stage] (.ofList items)).run script).result =
      .ok (.reached 1 (items.filter kind) false)

theorem selects_of_parse (hbuiltin : builtinCommands limit ⊆ registry.commands) (ctx : Context)
    {word : String} {c : Condition} (hparse : Condition.parse word = .ok c) :
    Selects registry ctx word (Condition.keeps [c]) := by
  intro stage items script hstage
  have hwords := mapM_eq_ok_iff.mpr (.cons hparse .nil)
  exact run_filters hbuiltin ctx hstage (List.cons_ne_nil _ _) hwords items script

/-- A word keeps one kind of items. An item that is no request tells two kinds apart. -/
theorem Selects.unique {ctx : Context} {word : String} {kind kind' : Item → Bool}
    (h : Selects registry ctx word kind) (h' : Selects registry ctx word kind') {x : Item}
    (hx : x.approval? = none) : kind x = kind' x := by
  have hstage : (⟨"where", [(Args.bareName, .many [word])]⟩ : Invocation).Filters [word] :=
    ⟨rfl, rfl⟩
  have hrun := (h _ [x] .empty hstage).symm.trans (h' _ [x] .empty hstage)
  have hsole (kind : Item → Bool) : Item.soleApproval? ([x].filter kind) = none := by
    cases hkind : kind x with
    | true => simpa [hkind, Item.soleApproval?] using hx
    | false => simp [hkind, Item.soleApproval?]
  rw [Outcome.reached_of_none (hsole kind), Outcome.reached_of_none (hsole kind')] at hrun
  have hitems : [x].filter kind = [x].filter kind' :=
    congrArg Outcome.items (Except.ok.inj hrun)
  cases hkind : kind x <;> cases hkind' : kind' x <;> simp [hkind, hkind'] at hitems ⊢

/-- Let a path be free of the characters of the operators. Then a word of the path, an unequal sign
and any text keeps the objects without a value at the path that has the text. A word of the path, an
equal sign and a text keeps the objects with such a value if and only if the text holds no unequal
sign. If it does, the first one is the operator: all in front of it is the path, and the objects that
say something else there are kept. -/
theorem where_word_exact_iff (hbuiltin : builtinCommands limit ⊆ registry.commands)
    (ctx : Context) {path : String} (hne : path ≠ "") (hmark : '!' ∉ path.toList)
    (hsign : '=' ∉ path.toList) (text : String) :
    Selects registry ctx (path ++ "!=" ++ text) (fun x => x.isObject && !x.hasText path text) ∧
      (Selects registry ctx (path ++ "=" ++ text) (Item.hasText path text) ↔
        ¬ ['!', '='] <:+: text.toList) ∧
      ∀ front back, text = front ++ "!=" ++ back → ¬ ['!', '='] <:+: front.toList →
        Selects registry ctx (path ++ "=" ++ text)
          (fun x => x.isObject && !x.hasText (path ++ "=" ++ front) back) := by
  have hpath : ¬ ['!', '='] <:+: path.toList := fun h => hmark (h.subset (by simp))
  have hunequal := selects_of_parse hbuiltin ctx (Condition.parse_unequal hne hpath text)
  rw [Condition.keeps_unequal] at hunequal
  have hother : ∀ front back, text = front ++ "!=" ++ back → ¬ ['!', '='] <:+: front.toList →
      Selects registry ctx (path ++ "=" ++ text)
        (fun x => x.isObject && !x.hasText (path ++ "=" ++ front) back) := by
    rintro front back rfl hfront
    have hlong : ¬ ['!', '='] <:+: (path ++ "=" ++ front).toList := by
      simpa using Condition.not_infix_behind hmark hfront
    have hne' : path ++ "=" ++ front ≠ "" := by
      simp [hne]
    have hparse := selects_of_parse hbuiltin ctx (Condition.parse_unequal hne' hlong back)
    rw [Condition.keeps_unequal] at hparse
    simpa only [String.append_assoc] using hparse
  refine ⟨hunequal, ⟨fun hselects hinfix => ?_, fun htext => ?_⟩, hother⟩
  · -- An object without members has no value anywhere, so it differs under every path.
    obtain ⟨front, back, htext, hfront⟩ := Text.exists_first (List.cons_ne_nil _ _) hinfix
    have hword : text = String.ofList front ++ "!=" ++ String.ofList back := by
      rw [← String.toList_inj]
      simpa using htext
    have hdiffers := hother _ _ hword (by simpa using hfront)
    have hkinds := hselects.unique hdiffers (x := .value (.obj [])) rfl
    have hnothing (path text : String) : (Item.value (.obj [])).hasText path text = false := by
      rw [Item.hasText, Json.atPath_obj_nil]
      rfl
    rw [hnothing, hnothing] at hkinds
    cases hkinds
  · have hequal := selects_of_parse hbuiltin ctx (Condition.parse_equal hne hmark hsign htext)
    rwa [Condition.keeps_equal] at hequal

/-- An equal sign in the text is no second operator. Two of the objects do not say the text: one says
another, and one has no object to look into. -/
theorem text_with_equal_sign_is_kept :
    let registry : Registry := Registry.builtin none
    let ctx : Context := ⟨.tool, [], false⟩
    let object (v : Json) : Item := .value (.obj [("a", v)])
    let meant := object (.obj [("b", .str "x=1!")])
    let others := [object (.obj [("b", .bool false)]), object (.int 1)]
    let ran (word : String) := ((run registry ctx [⟨"where", [("_", .many [word])]⟩]
      (.ofList (meant :: .value .null :: others))).run .empty).result
    '!' ∉ "a.b".toList ∧ '=' ∉ "a.b".toList ∧ ¬ ['!', '='] <:+: "x=1!".toList ∧
      ran "a.b=x=1!" = .ok (.completed [meant] false) ∧
      ran "a.b!=x=1!" = .ok (.completed others false) := by
  intro registry ctx object meant others ran
  have hmark : '!' ∉ "a.b".toList := by decide
  have hsign : '=' ∉ "a.b".toList := by decide
  have htext : ¬ ['!', '='] <:+: "x=1!".toList := by decide
  have hbuiltin : builtinCommands none ⊆ registry.commands := fun c hc => hc
  have hne : "a.b" ≠ "" := by decide
  obtain ⟨hunequal, hequal, -⟩ := where_word_exact_iff hbuiltin ctx hne hmark hsign "x=1!"
  exact ⟨hmark, hsign, htext, hequal.mpr htext _ _ .empty ⟨rfl, rfl⟩,
    hunequal _ _ .empty ⟨rfl, rfl⟩⟩

/-- The text of the condition holds an unequal sign, so the word is read as a condition on the path
`q=a`. There is nothing at that path, and an object is kept that says something else. -/
theorem text_with_unequal_sign_keeps_other :
    let object (s : String) : Item := .value (.obj [("q", .str s)])
    let ran := ((run (Registry.builtin none) ⟨.tool, [], false⟩
      [⟨"where", [("_", .many ["q=a!=b"])]⟩] (.ofList [object "a!=b", object "c"])).run .empty).result
    (object "c").hasText "q" "a!=b" = false ∧
      ran = .ok (.completed [object "a!=b", object "c"] false) := by
  intro object ran
  exact ⟨by decide, rfl⟩

end Pipeline

end Sluice
