import Mathlib.Data.List.Perm.Basic
import Sluice.Proofs.Pipeline.Words
import Sluice.Proofs.Text.Cut
import Sluice.Proofs.Token.Contents

/-!
Pipelines are read back from their text. A printed stage spells its arguments one by one, each flag
with a value of its own, so no word is taken for the value of another; collected by name they are the
arguments of the stage again, with the bare words in front.
-/

namespace Sluice

/-- A value as flags are collected: one text where the flag stands once, a list where it stands
repeatedly. -/
def ArgValue.Collected (v : ArgValue) : Prop :=
  (∃ s, v = .single s) ∨ ∃ ss, v = .many ss ∧ 2 ≤ ss.length

/-- A stage that has a text: a command name, a list of bare words, and flags with names that can
stand before an equals sign. -/
structure Invocation.Writable (stage : Invocation) : Prop where
  name : stage.name ≠ ""
  args : stage.args.Lawful
  bare : ∃ ss, (Args.bareName, .many ss) ∈ stage.args
  flags : ∀ name v, (name, v) ∈ stage.args → name ≠ Args.bareName →
    name ≠ "" ∧ '=' ∉ name.toList ∧ v.Collected

/-- The stage with its bare words in front of its flags, which stay in their order. -/
def Invocation.bareFirst (stage : Invocation) : Invocation :=
  ⟨stage.name, (Args.bareName, .many stage.args.positional) ::
    stage.args.filter fun arg => arg.1 ≠ Args.bareName⟩

namespace Argument

def Spelled : Argument → Prop
  | .bare _ => True
  | .flag name _ => name ≠ "" ∧ '=' ∉ name.toList

theorem ofWords_words {as : List Argument} (h : ∀ a ∈ as, a.Spelled) :
    ofWords (as.map word) = .ok as := by
  induction as with
  | nil => rfl
  | cons a as ih =>
    rw [List.forall_mem_cons] at h
    rw [List.map_cons, ofWords, ih h.2]
    cases a with
    | bare s => rfl
    | flag name value =>
      obtain ⟨hname, hequals⟩ := h.1
      have hparts : (flag name value).word.flagParts = (name, some value) := by
        simp only [word, Word.flagParts, String.toList_ofList, List.drop_succ_cons, List.drop_zero,
          Text.cutAt?_append hequals, String.ofList_toList]
      have htext : (flag name value).word.text.toList =
          '-' :: '-' :: (name.toList ++ '=' :: value.toList) := String.toList_ofList
      have hlength : (flag name value).word.text.toList.length > 2 := by
        rw [htext, List.length_cons, List.length_cons, List.length_append, List.length_cons]
        omega
      have hterminator : (flag name value).word.isTerminator = false := by
        have hne : (flag name value).word.text ≠ "--" := by
          intro heq
          rw [heq] at hlength
          exact absurd hlength (by decide)
        simp only [Word.isTerminator, beq_eq_false_iff_ne.mpr hne, Bool.and_false]
      have hflag : (flag name value).word.isFlag = true := by
        rw [Word.isFlag, decide_eq_true hlength, htext]
        rfl
      simp only [hterminator, hflag, hparts, Bool.false_eq_true, Bool.not_true, ↓reduceIte,
        String.isEmpty_iff, if_neg hname, Except.map]

end Argument

namespace Args

variable {args : Args} {name : String}

/-- A name that has no value yet gets one behind all others. -/
theorem add_append (h : name ∉ args.map Prod.fst) (rest : Args) (text : String) :
    add (args ++ rest) name text = args ++ add rest name text := by
  induction args with
  | nil => rfl
  | cons arg args ih =>
    obtain ⟨k, v⟩ := arg
    rw [List.map_cons, List.mem_cons, not_or] at h
    rw [List.cons_append, add.eq_def]
    simp only [if_neg (Ne.symm h.1), ih h.2, List.cons_append]

/-- The texts of a name that is repeated. -/
theorem foldl_add_many (h : name ∉ args.map Prod.fst) (texts more : List String) :
    more.foldl (fun acc text => acc.add name text) (args ++ [(name, .many texts)]) =
      args ++ [(name, .many (texts ++ more))] := by
  induction more generalizing texts with
  | nil => rw [List.append_nil, List.foldl_nil]
  | cons text more ih =>
    rw [List.foldl_cons, add_append h, add, if_pos rfl, ih, List.append_assoc, List.singleton_append]

/-- The texts of a value under a new name are collected as this value. -/
theorem foldl_add (h : name ∉ args.map Prod.fst) {v : ArgValue} (hv : v.Collected) :
    v.texts.foldl (fun acc text => acc.add name text) args = args ++ [(name, v)] := by
  have hfirst (text : String) : args.add name text = args ++ [(name, .single text)] := by
    have hnew := add_append h [] text
    rwa [List.append_nil] at hnew
  rcases hv with ⟨s, rfl⟩ | ⟨ss, rfl, hlength⟩
  · exact hfirst s
  · obtain ⟨first, second, more, rfl⟩ : ∃ first second more, ss = first :: second :: more := by
      match ss, hlength with
      | first :: second :: more, _ => exact ⟨first, second, more, rfl⟩
    rw [ArgValue.texts, List.foldl_cons, List.foldl_cons, hfirst, add_append h, add, if_pos rfl]
    exact foldl_add_many h [first, second] more

/-- The arguments of one name are collected behind those that were there, bare words apart. -/
theorem foldl_collect_texts (h : name ∉ args.map Prod.fst) {v : ArgValue}
    (hv : name ≠ bareName → v.Collected) :
    (v.texts.map (if name = bareName then .bare else .flag name)).foldl Argument.collect args =
      args ++ if name = bareName then [] else [(name, v)] := by
  by_cases hname : name = bareName
  · simp only [if_pos hname, List.foldl_map, List.append_nil]
    exact List.foldl_fixed v.texts
  · simp only [if_neg hname, List.foldl_map, Argument.collect]
    exact foldl_add h (hv hname)

/-- Collecting arguments one by one gives the flags behind those that were there. -/
theorem foldl_collect {acc : Args} (hlawful : args.Lawful)
    (hnew : ∀ name ∈ args.map Prod.fst, name ∉ acc.map Prod.fst)
    (hflags : ∀ name v, (name, v) ∈ args → name ≠ bareName → v.Collected) :
    args.arguments.foldl Argument.collect acc =
      acc ++ args.filter fun arg => arg.1 ≠ bareName := by
  induction args generalizing acc with
  | nil => exact (List.append_nil acc).symm
  | cons arg args ih =>
    obtain ⟨name, v⟩ := arg
    have hkeys := List.nodup_cons.mp hlawful
    rw [List.map_cons, List.forall_mem_cons] at hnew
    have hfirst := foldl_collect_texts hnew.1 (v := v) (hflags name v (by simp))
    rw [arguments, List.flatMap_cons, List.foldl_append, hfirst]
    have hlater (acc' : Args) (hnew' : ∀ k ∈ args.map Prod.fst, k ∉ acc'.map Prod.fst) :
        (arguments args).foldl Argument.collect acc' =
          acc' ++ args.filter fun arg => arg.1 ≠ bareName :=
      ih hkeys.2 hnew' fun k u hku => hflags k u (List.mem_cons_of_mem _ hku)
    by_cases hname : name = bareName
    · rw [if_pos hname, List.append_nil, List.filter_cons_of_neg (by simpa using hname)]
      exact hlater acc hnew.2
    · rw [if_neg hname, List.filter_cons_of_pos (by simpa using hname)]
      refine (hlater (acc ++ [(name, v)]) fun k hk => ?_).trans ?_
      · rw [List.map_append, List.mem_append, not_or]
        refine ⟨hnew.2 k hk, fun hmem => ?_⟩
        obtain rfl := List.mem_singleton.mp hmem
        exact hkeys.1 hk
      · rw [List.append_assoc, List.singleton_append]

/-- The bare words among the arguments are those of the name they are kept under. -/
theorem filterMap_bareText? (hlawful : args.Lawful) :
    args.arguments.filterMap Argument.bareText? = args.positional := by
  induction args with
  | nil => rfl
  | cons arg args ih =>
    obtain ⟨name, v⟩ := arg
    have hkeys := List.nodup_cons.mp hlawful
    have hrest : (arguments args).filterMap Argument.bareText? = positional args := ih hkeys.2
    rw [arguments, List.flatMap_cons, List.filterMap_append]
    change _ ++ (arguments args).filterMap Argument.bareText? = _
    rw [hrest, List.filterMap_map]
    by_cases hname : name = bareName
    · have hnone : args.lookup bareName = none := by
        rw [List.lookup_eq_none_iff]
        intro arg harg
        have hne : arg.1 ≠ name := fun heq => hkeys.1 (List.mem_map.mpr ⟨arg, harg, heq⟩)
        simpa [hname] using hne.symm
      have htexts : v.texts.filterMap (Argument.bareText? ∘ Argument.bare) = v.texts :=
        List.filterMap_some
      simp only [hname, positional, texts, List.lookup_cons_self, hnone, if_pos, htexts,
        List.append_nil]
    · have hnone : v.texts.filterMap (Argument.bareText? ∘ Argument.flag name) = [] := by
        rw [List.filterMap_eq_nil_iff]
        exact fun _ _ => rfl
      have hne : (bareName == name) = false := beq_eq_false_iff_ne.mpr (Ne.symm hname)
      simp only [if_neg hname, hnone, List.nil_append, positional, texts, List.lookup_cons, hne]

/-- The flags of these arguments, collected by name behind the bare words. -/
theorem ofArguments_arguments (hlawful : args.Lawful)
    (hflags : ∀ name v, (name, v) ∈ args → name ≠ bareName → v.Collected) :
    ofArguments args.arguments =
      (bareName, .many args.positional) :: args.filter fun arg => arg.1 ≠ bareName := by
  rw [ofArguments, filterMap_bareText? hlawful,
    foldl_collect hlawful (fun _ _ => List.not_mem_nil) hflags, List.nil_append]

end Args

namespace Invocation

variable {stage : Invocation}

/-- The bare words of a stage are moved, and nothing else is changed. -/
theorem Writable.same_bareFirst (h : stage.Writable) : stage.bareFirst.Same stage := by
  obtain ⟨ss, hmem⟩ := h.bare
  obtain ⟨before, after, hsplit⟩ := List.append_of_mem hmem
  have hpositional : stage.args.positional = ss := by
    rw [Args.positional, Args.texts, (lookup_eq_some h.args).mpr hmem]
    rfl
  have hlawful := h.args
  rw [Args.Lawful, hsplit, List.map_append, List.map_cons] at hlawful
  have hbare := (List.nodup_cons.mp (List.perm_middle.nodup_iff.mp hlawful)).1
  rw [← List.map_append] at hbare
  have hflags : ∀ arg ∈ before ++ after, arg.1 ≠ Args.bareName :=
    fun arg harg heq => hbare (List.mem_map.mpr ⟨arg, harg, heq⟩)
  have hfilter : stage.args.filter (fun arg => arg.1 ≠ Args.bareName) = before ++ after := by
    rw [hsplit, List.filter_append, List.filter_cons_of_neg (by simp), ← List.filter_append]
    exact List.filter_eq_self.mpr fun arg harg => by simpa using hflags arg harg
  refine ⟨rfl, ?_⟩
  rw [bareFirst, hpositional, hfilter, hsplit]
  exact List.perm_middle.symm

theorem Writable.spelled (h : stage.Writable) : ∀ a ∈ stage.args.arguments, a.Spelled := by
  intro a ha
  obtain ⟨⟨name, v⟩, harg, ha⟩ := List.mem_flatMap.mp ha
  obtain ⟨s, -, rfl⟩ := List.mem_map.mp ha
  by_cases hname : name = Args.bareName
  · simp only [if_pos hname, Argument.Spelled]
  · obtain ⟨hne, hequals, -⟩ := h.flags name v harg hname
    simp only [if_neg hname]
    exact ⟨hne, hequals⟩

theorem Writable.ofWords (h : stage.Writable) (last index : Nat) :
    Invocation.ofWords last index stage.words = .ok stage.bareFirst := by
  have hcollected : ∀ name v, (name, v) ∈ stage.args → name ≠ Args.bareName → v.Collected :=
    fun name v harg hname => (h.flags name v harg hname).2.2
  have hflag : Word.isFlag ⟨stage.name, true⟩ = false := rfl
  rw [words, Invocation.ofWords, hflag, Argument.ofWords_words h.spelled]
  simp only [Bool.false_eq_true, ↓reduceIte, String.isEmpty_iff, if_neg h.name, Except.map,
    Args.ofArguments_arguments h.args hcollected]
  rfl

end Invocation

namespace Pipeline

theorem ofSegments_words {p : Pipeline} (h : ∀ stage ∈ p, stage.Writable) (last index : Nat) :
    ofSegments last index (p.map Invocation.words) = .ok (p.map Invocation.bareFirst) := by
  induction p generalizing index with
  | nil => rfl
  | cons stage p ih =>
    rw [List.forall_mem_cons] at h
    rw [List.map_cons, ofSegments, h.1.ofWords, ih h.2]
    rfl

/-- The text of a pipeline is accepted, and what is read from it is the pipeline: the same stages
with the same bare words and the same flags in the same order, the bare words in front. -/
theorem parse_print {p : Pipeline} (h : ∀ stage ∈ p, stage.Writable) :
    parse (String.ofList p.print) = .ok (p.map Invocation.bareFirst) ∧
      Same (p.map Invocation.bareFirst) p := by
  constructor
  · rw [parse, String.toList_ofList]
    cases p with
    | nil => rfl
    | cons stage rest =>
      obtain ⟨out, hscans, hne, hsegments⟩ := scans_print (List.cons_ne_nil stage rest)
      have hlexemes : Lexeme.ofText (print (stage :: rest)) = .ok out := hscans 0
      rw [hlexemes]
      change ofLexemes out = _
      rw [ofLexemes, List.isEmpty_eq_false_iff.mpr hne, hsegments]
      exact ofSegments_words h _ 0
  · rw [Same, List.forall₂_map_left_iff, List.forall₂_same]
    exact fun stage hstage => (h stage hstage).same_bareFirst

/-- A name, words and flags full of quotes, blanks, bars, dashes and equals signs, with the bare words
behind the flags. -/
theorem parse_print_of_marks :
    let first : Invocation := ⟨"it's", [("k |", .many ["1", "='"]), ("n", .single ""),
      ("_", .many ["--x", "", "a\\"])]⟩
    let second : Invocation := ⟨"--", [("_", .many [])]⟩
    (∀ stage ∈ [first, second], stage.Writable) ∧
      parse (String.ofList (print [first, second])) = .ok [⟨"it's", [("_", .many ["--x", "", "a\\"]),
        ("k |", .many ["1", "='"]), ("n", .single "")]⟩, second] := by
  intro first second
  have hfirst : first.Writable := by
    refine ⟨by simp [first], by simp [first, Args.Lawful],
      ⟨_, List.mem_of_getElem? (show first.args[2]? = _ from rfl)⟩, ?_⟩
    intro name v harg hname
    rcases List.mem_cons.mp harg with heq | harg
    · cases heq
      exact ⟨by decide, by decide, .inr ⟨_, rfl, Nat.le_refl 2⟩⟩
    · rcases List.mem_cons.mp harg with heq | harg
      · cases heq
        exact ⟨by decide, by decide, .inl ⟨_, rfl⟩⟩
      · obtain ⟨rfl, -⟩ := Prod.mk.inj (List.mem_singleton.mp harg)
        exact absurd rfl hname
  have hsecond : second.Writable := by
    refine ⟨by simp [second], by simp [second, Args.Lawful], ⟨[], List.mem_singleton.mpr rfl⟩, ?_⟩
    intro name v harg hname
    obtain ⟨rfl, -⟩ := Prod.mk.inj (List.mem_singleton.mp harg)
    exact absurd rfl hname
  have hwritable : ∀ stage ∈ [first, second], stage.Writable := by
    rw [List.forall_mem_cons, List.forall_mem_singleton]
    exact ⟨hfirst, hsecond⟩
  exact ⟨hwritable, (parse_print hwritable).1⟩

end Pipeline

end Sluice
