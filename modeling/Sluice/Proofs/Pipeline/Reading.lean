import Sluice.Proofs.Pipeline.Acceptance

/-!
What an accepted text says. The words behind a command name are read as arguments from left to
right, where only a flag without a value of its own looks at the word after it. A segment is read by
itself, so a text that two others make up with a bar between them says what the two say, one after
the other.
-/

namespace Sluice

namespace Word

/-- A flag that carries its value behind an equals sign. -/
def Carries (w : Word) (name value : String) : Prop :=
  w.quoted = false ∧ name ≠ "" ∧ '=' ∉ name.toList ∧
    w.text.toList = '-' :: '-' :: (name.toList ++ '=' :: value.toList)

def Calls (w : Word) (name : String) : Prop :=
  w.quoted = false ∧ name ≠ "" ∧ '=' ∉ name.toList ∧ w.text.toList = '-' :: '-' :: name.toList

variable {w : Word} {name value : String}

theorem Carries.flag (h : w.Carries name value) : w.Flag := by
  obtain ⟨hquoted, -, -, htext⟩ := h
  refine ⟨hquoted, ?_⟩
  cases hname : name.toList with
  | nil => exact ⟨'=', value.toList, by rw [htext, hname]; rfl⟩
  | cons c cs => exact ⟨c, cs ++ '=' :: value.toList, by rw [htext, hname]; rfl⟩

theorem Calls.flag (h : w.Calls name) : w.Flag := by
  obtain ⟨hquoted, hne, -, htext⟩ := h
  refine ⟨hquoted, ?_⟩
  cases hname : name.toList with
  | nil => exact absurd (String.toList_inj.mp hname) hne
  | cons c cs => exact ⟨c, cs, by rw [htext, hname]⟩

theorem Carries.flagParts (h : w.Carries name value) : w.flagParts = (name, some value) := by
  obtain ⟨-, -, hequals, htext⟩ := h
  simp only [Word.flagParts, htext, List.drop_succ_cons, List.drop_zero,
    Text.cutAt?_append hequals, String.ofList_toList]

theorem Calls.flagParts (h : w.Calls name) : w.flagParts = (name, none) := by
  obtain ⟨-, -, hequals, htext⟩ := h
  simp only [Word.flagParts, htext, List.drop_succ_cons, List.drop_zero,
    Text.cutAt?_eq_none.mpr hequals, String.ofList_toList]

theorem Calls.unique {name' : String} (h : w.Calls name) (h' : w.Calls name') : name = name' :=
  (Prod.mk.inj (h.flagParts.symm.trans h'.flagParts)).1

theorem Calls.not_carries {name' : String} (h : w.Calls name) : ¬ w.Carries name' value :=
  fun h' => nomatch h.flagParts.symm.trans h'.flagParts

theorem carries_of_flagParts (hflag : w.Flag) (hparts : w.flagParts = (name, some value))
    (hname : name ≠ "") : w.Carries name value := by
  obtain ⟨hquoted, c, rest, htext⟩ := hflag
  rw [Word.flagParts, htext, List.drop_succ_cons, List.drop_succ_cons, List.drop_zero] at hparts
  cases hcut : Text.cutAt? ['='] (c :: rest) with
  | none =>
    rw [hcut] at hparts
    cases hparts
  | some parts =>
    obtain ⟨before, after⟩ := parts
    rw [hcut] at hparts
    obtain ⟨rfl, hafter⟩ := Prod.mk.inj hparts
    obtain rfl := Option.some.inj hafter
    obtain ⟨hrest, hequals⟩ := Text.cutAt?_eq_some.mp hcut
    refine ⟨hquoted, hname, ?_, ?_⟩
    · rwa [String.toList_ofList]
    · rw [htext, hrest, String.toList_ofList, String.toList_ofList]

theorem calls_of_flagParts (hflag : w.Flag) (hparts : w.flagParts = (name, none))
    (hname : name ≠ "") : w.Calls name := by
  obtain ⟨hquoted, c, rest, htext⟩ := hflag
  rw [Word.flagParts, htext, List.drop_succ_cons, List.drop_succ_cons, List.drop_zero] at hparts
  cases hcut : Text.cutAt? ['='] (c :: rest) with
  | some parts =>
    rw [hcut] at hparts
    cases hparts
  | none =>
    rw [hcut] at hparts
    obtain ⟨rfl, -⟩ := Prod.mk.inj hparts
    refine ⟨hquoted, hname, ?_, ?_⟩
    · rw [String.toList_ofList]
      exact Text.cutAt?_eq_none.mp hcut
    · rw [htext, String.toList_ofList]

/-- A flag waits for its value exactly if it is a name and nothing else. -/
theorem awaits_iff : w.Awaits ↔ ∃ name, w.Calls name := by
  constructor
  · rintro ⟨hflag, hequals⟩
    obtain ⟨hquoted, c, rest, htext⟩ := hflag
    rw [htext] at hequals
    have hrest : '=' ∉ c :: rest := fun h => hequals (.tail _ (.tail _ h))
    refine ⟨String.ofList (c :: rest), hquoted, ?_, ?_, ?_⟩
    · simp [← String.toList_inj]
    · rwa [String.toList_ofList]
    · rw [htext, String.toList_ofList]
  · rintro ⟨name, h⟩
    refine ⟨h.flag, ?_⟩
    obtain ⟨-, -, hequals, htext⟩ := h
    rw [htext]
    simpa using hequals

end Word

namespace Argument

/-- How words are read as arguments. Behind a `--` in the place of a word all are bare. A flag
without a value of its own takes the next word, the `--` too, unless that is a flag; else its value
is `true`. -/
inductive Reads : List Word → List Argument → Prop
  | nil : Reads [] []
  | terminator {w : Word} {ws : List Word} :
      w.Terminator → Reads (w :: ws) (ws.map fun w => .bare w.text)
  | bare {w : Word} {ws : List Word} {as : List Argument} :
      ¬ w.Flag → ¬ w.Terminator → Reads ws as → Reads (w :: ws) (.bare w.text :: as)
  | carried {w : Word} {name value : String} {ws : List Word} {as : List Argument} :
      w.Carries name value → Reads ws as → Reads (w :: ws) (.flag name value :: as)
  | taken {w v : Word} {name : String} {ws : List Word} {as : List Argument} :
      w.Calls name → ¬ v.Flag → Reads ws as → Reads (w :: v :: ws) (.flag name v.text :: as)
  | alone {w : Word} {name : String} {ws : List Word} {as : List Argument} :
      w.Calls name → (∀ v ∈ ws.head?, v.Flag) → Reads ws as →
        Reads (w :: ws) (.flag name "true" :: as)

theorem reads_of_ofWords {ws : List Word} {as : List Argument} (h : ofWords ws = .ok as) :
    Reads ws as := by
  have hmap {r : Except SyntaxError (List Argument)} {a : Argument} {as : List Argument}
      (h : r.map (a :: ·) = .ok as) : ∃ rest, r = .ok rest ∧ as = a :: rest := by
    cases r with
    | error e => cases h
    | ok rest => exact ⟨rest, rfl, (Except.ok.inj h).symm⟩
  fun_induction ofWords ws generalizing as with
  | case1 =>
    cases h
    exact .nil
  | case2 w rest hterminator =>
    cases h
    exact .terminator (Word.isTerminator_iff.mp hterminator)
  | case3 w rest hterminator hflag ih =>
    rw [Bool.not_eq_true', ← Bool.not_eq_true, Word.isFlag_iff] at hflag
    obtain ⟨more, hmore, rfl⟩ := hmap h
    exact .bare hflag (mt Word.isTerminator_iff.mpr hterminator) (ih hmore)
  | case4 => cases h
  | case5 w rest hterminator hflag name hname v hparts ih =>
    rw [Bool.not_not_eq, Word.isFlag_iff] at hflag
    rw [String.isEmpty_iff] at hname
    obtain ⟨more, hmore, rfl⟩ := hmap h
    exact .carried (Word.carries_of_flagParts hflag hparts hname) (ih hmore)
  | case6 w hterminator hflag name hname hparts =>
    rw [Bool.not_not_eq, Word.isFlag_iff] at hflag
    rw [String.isEmpty_iff] at hname
    cases h
    refine .alone (Word.calls_of_flagParts hflag hparts hname) ?_ .nil
    rintro u ⟨⟩
  | case7 w hterminator hflag name hname v after hv hparts ih =>
    rw [Bool.not_not_eq, Word.isFlag_iff] at hflag
    rw [String.isEmpty_iff] at hname
    obtain ⟨more, hmore, rfl⟩ := hmap h
    refine .alone (Word.calls_of_flagParts hflag hparts hname) ?_ (ih hmore)
    rintro u ⟨⟩
    exact Word.isFlag_iff.mp hv
  | case8 w hterminator hflag name hname v after hv hparts ih =>
    rw [Bool.not_not_eq, Word.isFlag_iff] at hflag
    rw [String.isEmpty_iff] at hname
    obtain ⟨more, hmore, rfl⟩ := hmap h
    exact .taken (Word.calls_of_flagParts hflag hparts hname) (mt Word.isFlag_iff.mpr hv) (ih hmore)

theorem ofWords_of_reads {ws : List Word} {as : List Argument} (h : Reads ws as) :
    ofWords ws = .ok as := by
  have hopen {w : Word} (hflag : w.Flag) : w.isTerminator = false ∧ w.isFlag = true := by
    refine ⟨?_, Word.isFlag_iff.mpr hflag⟩
    rw [← Bool.not_eq_true, Word.isTerminator_iff]
    exact fun hterminator => hterminator.not_flag hflag
  induction h with
  | nil => rfl
  | @terminator w ws hterminator =>
    rw [ofWords, if_pos (Word.isTerminator_iff.mpr hterminator)]
  | @bare w ws as hflag hterminator _ ih =>
    rw [← Word.isFlag_iff, Bool.not_eq_true] at hflag
    rw [ofWords, if_neg (mt Word.isTerminator_iff.mp hterminator), hflag, Bool.not_false,
      if_pos rfl, ih]
    rfl
  | @carried w name value ws as hcarries _ ih =>
    obtain ⟨hterminator, hflag⟩ := hopen hcarries.flag
    simp only [ofWords, hterminator, hflag, hcarries.flagParts, Bool.false_eq_true, Bool.not_true,
      ↓reduceIte, String.isEmpty_iff, if_neg hcarries.2.1, ih, Except.map]
  | @taken w v name ws as hcalls hv _ ih =>
    obtain ⟨hterminator, hflag⟩ := hopen hcalls.flag
    rw [← Word.isFlag_iff, Bool.not_eq_true] at hv
    rw [ofWords]
    simp only [hterminator, hflag, hcalls.flagParts, Bool.false_eq_true, Bool.not_true, ↓reduceIte,
      String.isEmpty_iff, if_neg hcalls.2.1, hv, ih, Except.map]
  | @alone w name ws as hcalls hnext _ ih =>
    obtain ⟨hterminator, hflag⟩ := hopen hcalls.flag
    cases ws with
    | nil =>
      cases ih
      simp only [ofWords, hterminator, hflag, hcalls.flagParts, Bool.false_eq_true, Bool.not_true,
        ↓reduceIte, String.isEmpty_iff, if_neg hcalls.2.1]
    | cons v ws =>
      have hv := Word.isFlag_iff.mpr (hnext v rfl)
      rw [ofWords]
      simp only [hterminator, hflag, hcalls.flagParts, Bool.false_eq_true, Bool.not_true,
        ↓reduceIte, String.isEmpty_iff, if_neg hcalls.2.1, hv, ih, Except.map]

theorem Reads.unique {ws : List Word} {as bs : List Argument} (h : Reads ws as)
    (h' : Reads ws bs) : as = bs :=
  Except.ok.inj ((ofWords_of_reads h).symm.trans (ofWords_of_reads h'))

/-- No flag that stands last in the first words takes its value from the others. -/
def Apart (front back : List Word) : Prop :=
  ∀ f ∈ front.getLast?, f.Awaits → ∀ v ∈ back.head?, v.Flag

theorem Apart.tail {w : Word} {front back : List Word} (h : Apart (w :: front) back) :
    Apart front back := by
  cases front with
  | nil => exact nofun
  | cons v front =>
    rw [Apart, List.getLast?_cons_cons] at h
    exact h

theorem Reads.append {front back : List Word} {as bs : List Argument} (h : Reads front as)
    (h' : Reads back bs) (hopen : ∀ w ∈ front, ¬ w.Terminator) (hapart : Apart front back) :
    Reads (front ++ back) (as ++ bs) := by
  induction h with
  | nil => exact h'
  | terminator hw => exact absurd hw (hopen _ (List.mem_cons_self ..))
  | bare hflag hw _ ih =>
    exact .bare hflag hw (ih (fun w h => hopen w (.tail _ h)) hapart.tail)
  | carried hw _ ih =>
    exact .carried hw (ih (fun w h => hopen w (.tail _ h)) hapart.tail)
  | taken hw hv _ ih =>
    exact .taken hw hv (ih (fun w h => hopen w (.tail _ (.tail _ h))) hapart.tail.tail)
  | @alone w name ws as hw hnext _ ih =>
    refine .alone hw ?_ (ih (fun w h => hopen w (.tail _ h)) hapart.tail)
    cases ws with
    | nil => exact hapart w rfl (Word.awaits_iff.mpr ⟨name, hw⟩)
    | cons v ws => exact hnext

/-- Where no `--` stands in the first words and they take nothing from the others, the two are read
one after the other. -/
theorem Reads.append_inv {front back : List Word} {as : List Argument}
    (h : Reads (front ++ back) as) (hopen : ∀ w ∈ front, ¬ w.Terminator)
    (hapart : Apart front back) :
    ∃ bs cs, as = bs ++ cs ∧ Reads front bs ∧ Reads back cs := by
  generalize hws : front ++ back = ws at h
  induction h generalizing front with
  | nil =>
    obtain ⟨rfl, rfl⟩ := List.append_eq_nil_iff.mp hws
    exact ⟨[], [], rfl, .nil, .nil⟩
  | terminator hw =>
    rcases List.append_eq_cons_iff.mp hws with ⟨rfl, rfl⟩ | ⟨front, rfl, -⟩
    · exact ⟨[], _, rfl, .nil, .terminator hw⟩
    · exact absurd hw (hopen _ (List.mem_cons_self ..))
  | bare hflag hw hrest ih =>
    rcases List.append_eq_cons_iff.mp hws with ⟨rfl, rfl⟩ | ⟨front, rfl, htail⟩
    · exact ⟨[], _, rfl, .nil, .bare hflag hw hrest⟩
    · obtain ⟨bs, cs, rfl, hfront, hback⟩ :=
        ih (fun w h => hopen w (.tail _ h)) hapart.tail htail.symm
      exact ⟨_ :: bs, cs, rfl, .bare hflag hw hfront, hback⟩
  | carried hw hrest ih =>
    rcases List.append_eq_cons_iff.mp hws with ⟨rfl, rfl⟩ | ⟨front, rfl, htail⟩
    · exact ⟨[], _, rfl, .nil, .carried hw hrest⟩
    · obtain ⟨bs, cs, rfl, hfront, hback⟩ :=
        ih (fun w h => hopen w (.tail _ h)) hapart.tail htail.symm
      exact ⟨_ :: bs, cs, rfl, .carried hw hfront, hback⟩
  | @taken w v name ws as hw hv hrest ih =>
    rcases List.append_eq_cons_iff.mp hws with ⟨rfl, rfl⟩ | ⟨front, rfl, htail⟩
    · exact ⟨[], _, rfl, .nil, .taken hw hv hrest⟩
    rcases List.append_eq_cons_iff.mp htail.symm with ⟨rfl, rfl⟩ | ⟨front, rfl, hmore⟩
    · exact absurd (hapart w rfl (Word.awaits_iff.mpr ⟨name, hw⟩) v rfl) hv
    · obtain ⟨bs, cs, rfl, hfront, hback⟩ :=
        ih (fun w h => hopen w (.tail _ (.tail _ h))) hapart.tail.tail hmore.symm
      exact ⟨_ :: bs, cs, rfl, .taken hw hv hfront, hback⟩
  | alone hw hnext hrest ih =>
    rcases List.append_eq_cons_iff.mp hws with ⟨rfl, rfl⟩ | ⟨front, rfl, rfl⟩
    · exact ⟨[], _, rfl, .nil, .alone hw hnext hrest⟩
    · obtain ⟨bs, cs, rfl, hfront, hback⟩ := ih (fun w h => hopen w (.tail _ h)) hapart.tail rfl
      refine ⟨_ :: bs, cs, rfl, .alone hw ?_ hfront, hback⟩
      cases front with
      | nil => exact nofun
      | cons v front => exact hnext

/-- A flag that waits for its value has a `--` behind it for that. -/
theorem Reads.append_flag_terminator {front back : List Word} {f t : Word} {name : String}
    {as : List Argument} (h : Reads (front ++ [f] ++ t :: back) as)
    (hopen : ∀ w ∈ front ++ [f], ¬ w.Terminator) (hf : f.Calls name) (ht : t.Terminator) :
    ∃ bs cs, as = bs ++ .flag name "--" :: cs ∧ Reads (front ++ [f]) (bs ++ [.flag name "true"]) ∧
      Reads back cs := by
  have hfront : ∀ w ∈ front, ¬ w.Terminator := fun w hw => hopen w (List.mem_append_left _ hw)
  have hapart (ws : List Word) : Apart front (f :: ws) := by
    rintro _ - - _ ⟨⟩
    exact hf.flag
  rw [List.append_assoc, List.singleton_append] at h
  obtain ⟨bs, ds, rfl, hbs, hds⟩ := h.append_inv hfront (hapart _)
  have halone : Reads [f] [.flag name "true"] := .alone hf nofun .nil
  have htext : t.text = "--" := String.toList_inj.mp ht.2
  cases hds with
  | terminator hw => exact absurd hf.flag hw.not_flag
  | bare hflag _ _ => exact absurd hf.flag hflag
  | carried hw _ => exact absurd hw hf.not_carries
  | alone _ hnext _ => exact absurd (hnext t rfl) ht.not_flag
  | taken hw _ hrest =>
    obtain rfl := hf.unique hw
    exact ⟨bs, _, by rw [htext], hbs.append halone hfront (hapart _), hrest⟩

end Argument

namespace Invocation

/-- A stage that the words of a segment spell: the first one is its name, and its arguments are
those that the others are read as, collected by name. -/
def SpelledBy (stage : Invocation) (ws : List Word) : Prop :=
  ∃ name args as, ws = name :: args ∧ ¬ name.Flag ∧ name.text ≠ "" ∧ Argument.Reads args as ∧
    stage = ⟨name.text, .ofArguments as⟩

/-- Where a segment stands matters only to how it is refused. -/
theorem ofWords_ok_iff (last index : Nat) {ws : List Word} {stage : Invocation} :
    ofWords last index ws = .ok stage ↔ stage.SpelledBy ws := by
  cases ws with
  | nil =>
    refine iff_of_false ?_ (by simp [SpelledBy])
    rw [ofWords]
    split_ifs <;> simp
  | cons name args =>
    constructor
    · intro h
      rw [ofWords] at h
      split_ifs at h with hflag hempty
      rw [Word.isFlag_iff] at hflag
      rw [String.isEmpty_iff] at hempty
      cases hargs : Argument.ofWords args with
      | error e =>
        rw [hargs] at h
        cases h
      | ok as =>
        rw [hargs] at h
        exact ⟨name, args, as, rfl, hflag, hempty, Argument.reads_of_ofWords hargs,
          (Except.ok.inj h).symm⟩
    · rintro ⟨name, args, as, hws, hflag, hempty, hreads, rfl⟩
      obtain ⟨rfl, rfl⟩ := List.cons.inj hws
      rw [ofWords, if_neg (mt Word.isFlag_iff.mp hflag), if_neg (mt String.isEmpty_iff.mp hempty),
        Argument.ofWords_of_reads hreads]
      rfl

end Invocation

namespace Pipeline

theorem ofSegments_ok_iff (last index : Nat) {segments : List (List Word)} {stages : Pipeline} :
    ofSegments last index segments = .ok stages ↔
      List.Forall₂ Invocation.SpelledBy stages segments := by
  induction segments generalizing index stages with
  | nil =>
    rw [List.forall₂_nil_right_iff, ofSegments, Except.ok.injEq, eq_comm]
  | cons ws segments ih =>
    rw [List.forall₂_cons_right_iff, ofSegments]
    constructor
    · intro h
      cases hstage : Invocation.ofWords last index ws with
      | error e =>
        rw [hstage] at h
        cases h
      | ok stage =>
        cases hmore : ofSegments last (index + 1) segments with
        | error e =>
          rw [hstage, hmore] at h
          cases h
        | ok more =>
          rw [hstage, hmore] at h
          exact ⟨stage, more, (Invocation.ofWords_ok_iff last index).mp hstage,
            (ih (index + 1)).mp hmore, (Except.ok.inj h).symm⟩
    · rintro ⟨stage, more, hstage, hmore, rfl⟩
      rw [(Invocation.ofWords_ok_iff last index).mpr hstage, (ih (index + 1)).mpr hmore]
      rfl

/-- Every stage that a text says is spelled by the words of its segment. -/
theorem spelledBy_of_parse {text : String} {stages : Pipeline} (h : parse text = .ok stages) :
    ∃ lexemes, Lexeme.ofText text.toList = .ok lexemes ∧
      ∀ (i : Nat) (stage : Invocation), stages[i]? = some stage →
        ∃ ws, (Lexeme.segments lexemes)[i]? = some ws ∧ stage.SpelledBy ws := by
  cases hlexemes : Lexeme.ofText text.toList with
  | error e =>
    rw [parse, hlexemes] at h
    cases h
  | ok lexemes =>
    refine ⟨lexemes, rfl, ?_⟩
    intro i stage hstage
    rw [parse, hlexemes] at h
    change ofLexemes lexemes = _ at h
    rw [ofLexemes] at h
    split_ifs at h with hempty
    · cases h
      cases hstage
    · have hspelled := (ofSegments_ok_iff _ 0).mp h
      obtain ⟨hi, rfl⟩ := List.getElem?_eq_some_iff.mp hstage
      obtain ⟨hlength, hget⟩ := List.forall₂_iff_get.mp hspelled
      exact ⟨_, List.getElem?_eq_getElem (hlength ▸ hi), hget i hi (hlength ▸ hi)⟩

/-- A row of pieces with a bar or a word says some stages exactly if its segments spell them one by
one. -/
theorem parse_ok_iff {ps : List Piece} {text : String} (h : Piece.Spells ps text.toList)
    (hne : Piece.segments ps ≠ [[]]) {stages : Pipeline} :
    parse text = .ok stages ↔ List.Forall₂ Invocation.SpelledBy stages (Piece.segments ps) := by
  rw [parse_of_spells h, if_neg hne, ofSegments_ok_iff]

/-- A text says some stages, one at least, exactly if its segments spell them one by one. -/
theorem parse_ok_ne_nil_iff {ps : List Piece} {text : String} (h : Piece.Spells ps text.toList)
    {stages : Pipeline} :
    parse text = .ok stages ∧ stages ≠ [] ↔
      List.Forall₂ Invocation.SpelledBy stages (Piece.segments ps) := by
  by_cases hempty : Piece.segments ps = [[]]
  · rw [parse_of_spells h, if_pos hempty, hempty]
    refine iff_of_false ?_ ?_
    · rintro ⟨hnil, hne⟩
      exact hne (Except.ok.inj hnil).symm
    · intro hspelled
      cases hspelled with
      | cons hstage _ => simp [Invocation.SpelledBy] at hstage
  · rw [parse_ok_iff h hempty]
    refine and_iff_left_of_imp ?_
    rintro hspelled rfl
    exact Piece.segments_ne_nil ps (List.forall₂_nil_left_iff.mp hspelled)

/-- Two texts with a bar between them. Let the first one not break off. Then both together are
accepted exactly if each of them is and has a stage, and they say the stages of the first and then
those of the second. No quote, word or flag of the first is finished by the second. -/
theorem parse_append_bar {a : String} (ha : ∃ lexemes, Lexeme.ofText a.toList = .ok lexemes)
    (b : String) (stages : Pipeline) :
    parse (a ++ "|" ++ b) = .ok stages ↔
      ∃ front back, parse a = .ok front ∧ front ≠ [] ∧ parse b = .ok back ∧ back ≠ [] ∧
        stages = front ++ back := by
  have htext : (a ++ "|" ++ b).toList = a.toList ++ '|' :: b.toList := by
    simp
  obtain ⟨ps, hps⟩ : ∃ ps, Piece.Spells ps a.toList := by
    refine (Piece.spells_or_breaksOff a.toList).resolve_right ?_
    intro hbreaks
    obtain ⟨lexemes, hlexemes⟩ := ha
    obtain ⟨e, he⟩ := (Lexeme.ofText_error_iff a.toList).mpr hbreaks
    rw [hlexemes] at he
    exact nomatch he
  have hbar : Piece.Spelled .bar ['|'] := rfl
  rcases Piece.spells_or_breaksOff b.toList with ⟨qs, hqs⟩ | hbreaks
  · have hboth : Piece.Spells (ps ++ .bar :: qs) (a ++ "|" ++ b).toList := by
      rw [htext]
      exact hps.append (hqs.cons hbar)
    have hne : Piece.segments (ps ++ .bar :: qs) ≠ [[]] := by
      rw [ne_eq, Piece.segments_eq_singleton_nil]
      exact fun h => h.1 (List.mem_append_right ps (List.mem_cons_self ..))
    rw [parse_ok_iff hboth hne, Piece.segments_append_bar]
    constructor
    · intro hspelled
      have hfront := List.forall₂_take_append stages _ _ hspelled
      have hback := List.forall₂_drop_append stages _ _ hspelled
      rw [← parse_ok_ne_nil_iff hps] at hfront
      rw [← parse_ok_ne_nil_iff hqs] at hback
      exact ⟨_, _, hfront.1, hfront.2, hback.1, hback.2, (List.take_append_drop _ _).symm⟩
    · rintro ⟨front, back, hfront, hfrontNe, hback, hbackNe, rfl⟩
      exact List.rel_append ((parse_ok_ne_nil_iff hps).mp ⟨hfront, hfrontNe⟩)
        ((parse_ok_ne_nil_iff hqs).mp ⟨hback, hbackNe⟩)
  · have hboth : Piece.BreaksOff (a ++ "|" ++ b).toList := by
      rw [htext]
      exact Piece.BreaksOff.append hps (hbreaks.cons hbar)
    obtain ⟨e, he⟩ := parse_of_breaksOff hboth
    obtain ⟨e', he'⟩ := parse_of_breaksOff hbreaks
    rw [he]
    refine iff_of_false nofun ?_
    rintro ⟨front, back, -, -, hback, -⟩
    rw [he'] at hback
    exact nomatch hback

/-- A flag that waits for its value at the end of a segment does not get the quoted bar behind
it. -/
theorem parse_bar_behind_flag :
    let lexed (text : String) := ∃ lexemes, Lexeme.ofText text.toList = .ok lexemes
    let first : Invocation := ⟨"a", [("_", .many ["x y"]), ("k", .single "true")]⟩
    let second : Invocation := ⟨"|b", [("_", .many []), ("k", .single "z")]⟩
    lexed "a 'x y' --k " ∧ parse "a 'x y' --k | '|b' --k z" = .ok [first, second] := by
  intro lexed first second
  have hlexed : lexed "a 'x y' --k " :=
    ⟨[.word ⟨"a", false⟩, .word ⟨"x y", true⟩, .word ⟨"--k", false⟩], by decide +kernel⟩
  have hfirst : parse "a 'x y' --k " = .ok [first] := by decide +kernel
  have hsecond : parse " '|b' --k z" = .ok [second] := by decide +kernel
  have hboth := (parse_append_bar hlexed " '|b' --k z" [first, second]).mpr
    ⟨[first], [second], hfirst, List.cons_ne_nil _ _, hsecond, List.cons_ne_nil _ _, rfl⟩
  exact ⟨hlexed, hboth⟩

end Pipeline

end Sluice
