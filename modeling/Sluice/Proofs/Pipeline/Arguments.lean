import Sluice.Proofs.Pipeline.Reading
import Sluice.Proofs.Token.Contents

/-!
The arguments of a stage by name. Each name stands once and holds the texts that were read under it,
in the order in which they stand. One name is not free: the bare words are kept under it, and what
flags of that name say is lost. Behind a `--` all words are bare, except where the flag before it
takes it for its value.
-/

namespace Sluice

namespace Argument

/-- The name under which an argument is to be found. -/
def name : Argument → String
  | .bare _ => Args.bareName
  | .flag name _ => name

def text : Argument → String
  | .bare s => s
  | .flag _ value => value

def textsOf (as : List Argument) (key : String) : List String :=
  (as.filter fun a => a.name = key).map text

theorem textsOf_cons (a : Argument) (as : List Argument) (key : String) :
    textsOf (a :: as) key = (if a.name = key then [a.text] else []) ++ textsOf as key := by
  by_cases hname : a.name = key
  · simp [textsOf, hname]
  · simp [textsOf, hname]

/-- The texts of bare words are among those of the name that they are kept under. -/
theorem bareTexts_sublist (as : List Argument) :
    (as.filterMap bareText?).Sublist (textsOf as Args.bareName) := by
  induction as with
  | nil => exact .slnil
  | cons a as ih =>
    rw [textsOf_cons]
    cases a with
    | bare s => exact ih.cons_cons s
    | flag name value => exact ih.trans (List.sublist_append_right _ _)

/-- They are all of them exactly if no flag has that name. -/
theorem bareTexts_eq_iff (as : List Argument) :
    as.filterMap bareText? = textsOf as Args.bareName ↔
      ∀ value, .flag Args.bareName value ∉ as := by
  induction as with
  | nil => exact iff_of_true rfl fun _ => List.not_mem_nil
  | cons a as ih =>
    rw [textsOf_cons]
    cases a with
    | bare s => simpa [bareText?, name, text] using ih
    | flag key value =>
      have hskip : (flag key value :: as).filterMap bareText? = as.filterMap bareText? := rfl
      rw [hskip]
      by_cases hkey : key = Args.bareName
      · refine iff_of_false ?_ fun h => h value (hkey ▸ List.mem_cons_self ..)
        intro heq
        have hlength := congrArg List.length heq
        have hle := (bareTexts_sublist as).length_le
        simp only [name, hkey, ↓reduceIte, List.length_append, List.length_singleton] at hlength
        omega
      · simpa [name, hkey, Ne.symm hkey] using ih

end Argument

namespace Args

/-- The arguments hold what was read: each name stands once, bare words and flags have their texts
in order, and there are no other names. Nothing is said of flags of the name of the bare words. -/
structure Holds (args : Args) (as : List Argument) : Prop where
  once : args.Lawful
  bare : args.positional = as.filterMap Argument.bareText?
  flags : ∀ key, key ≠ bareName → args.texts key = Argument.textsOf as key
  only : ∀ key ∈ args.map Prod.fst, key = bareName ∨ ∃ value, .flag key value ∈ as

/-- Nothing of what was read is lost: under each name stand the texts of all its arguments. -/
def Keeps (args : Args) (as : List Argument) : Prop :=
  ∀ key, args.texts key = Argument.textsOf as key

theorem Holds.keeps_iff {args : Args} {as : List Argument} (h : args.Holds as) :
    args.Keeps as ↔ ∀ value, .flag bareName value ∉ as := by
  rw [← Argument.bareTexts_eq_iff, ← h.bare]
  constructor
  · intro hkeeps
    exact hkeeps bareName
  · intro hbare key
    by_cases hkey : key = bareName
    · exact hkey ▸ hbare
    · exact h.flags key hkey

theorem texts_cons (arg : String × ArgValue) (args : Args) (key : String) :
    texts (arg :: args) key = if key = arg.1 then arg.2.texts else texts args key := by
  by_cases hkey : key = arg.1
  · rw [if_pos hkey, texts, hkey, List.lookup_cons_self]
  · rw [if_neg hkey, texts, List.lookup_cons, beq_eq_false_iff_ne.mpr hkey]
    rfl

theorem texts_add (args : Args) (name text key : String) :
    (args.add name text).texts key =
      args.texts key ++ if name = key then [text] else [] := by
  induction args with
  | nil =>
    rw [add, texts_cons]
    by_cases hkey : name = key
    · simp [hkey, texts, ArgValue.texts]
    · simp [hkey, Ne.symm hkey, texts]
  | cons arg args ih =>
    obtain ⟨k, v⟩ := arg
    rw [add.eq_def]
    simp only
    split_ifs with hk hkey hkey
    · subst hk hkey
      cases v <;> simp [texts_cons, ArgValue.texts]
    · subst hk
      cases v <;> simp [texts_cons, Ne.symm hkey]
    · subst hkey
      simp [texts_cons, Ne.symm hk, ih]
    · simp [texts_cons, ih, hkey]

/-- A name that stands already is not added again. -/
theorem names_add (args : Args) (name text : String) :
    (args.add name text).map Prod.fst =
      if name ∈ args.map Prod.fst then args.map Prod.fst else args.map Prod.fst ++ [name] := by
  induction args with
  | nil => rfl
  | cons arg args ih =>
    obtain ⟨k, v⟩ := arg
    rw [add.eq_def]
    simp only
    by_cases hk : k = name
    · subst hk
      cases v <;> simp
    · rw [if_neg hk, List.map_cons, ih]
      by_cases hmem : name ∈ args.map Prod.fst
      · simp [hmem]
      · simp [hmem, Ne.symm hk]

theorem texts_collect (args : Args) (a : Argument) {key : String} (hkey : key ≠ bareName) :
    (Argument.collect args a).texts key =
      args.texts key ++ if a.name = key then [a.text] else [] := by
  cases a with
  | bare s => simp [Argument.collect, Argument.name, Ne.symm hkey]
  | flag name value =>
    rw [Argument.collect]
    split_ifs with hname hsame hsame
    · exact absurd (hsame.symm.trans hname) hkey
    · rw [List.append_nil]
    · rw [texts_add]
      exact congrArg _ (if_pos hsame)
    · rw [texts_add]
      exact congrArg _ (if_neg hsame)

theorem lawful_collect {args : Args} (h : args.Lawful) (a : Argument) :
    Args.Lawful (Argument.collect args a) := by
  cases a with
  | bare s => exact h
  | flag name value =>
    rw [Argument.collect]
    split_ifs with hname
    · exact h
    · rw [Lawful, names_add]
      split_ifs with hmem
      · exact h
      · refine List.nodup_append.mpr ⟨h, List.pairwise_singleton _ name, ?_⟩
        rintro k hk _ hname rfl
        exact hmem (List.mem_singleton.mp hname ▸ hk)

theorem mem_names_collect {args : Args} {a : Argument} {key : String}
    (h : key ∈ (Argument.collect args a).map Prod.fst) :
    key ∈ args.map Prod.fst ∨ key ≠ bareName ∧ ∃ value, a = .flag key value := by
  cases a with
  | bare s => exact .inl h
  | flag name value =>
    rw [Argument.collect] at h
    split_ifs at h with hname
    · exact .inl h
    · rw [names_add] at h
      split_ifs at h with hmem
      · exact .inl h
      · rcases List.mem_append.mp h with hold | hnew
        · exact .inl hold
        · obtain rfl := List.mem_singleton.mp hnew
          exact .inr ⟨hname, value, rfl⟩

/-- Collecting arguments one by one keeps each name once, puts the texts behind those that were
there, and brings in no name but those of flags. -/
theorem foldl_collect_spec {args : Args} (h : args.Lawful) (as : List Argument) :
    (as.foldl Argument.collect args).Lawful ∧
      (∀ key, key ≠ bareName → (as.foldl Argument.collect args).texts key =
        args.texts key ++ Argument.textsOf as key) ∧
      ∀ key ∈ (as.foldl Argument.collect args).map Prod.fst,
        key ∈ args.map Prod.fst ∨ key ≠ bareName ∧ ∃ value, .flag key value ∈ as := by
  induction as generalizing args with
  | nil => exact ⟨h, fun key _ => (List.append_nil _).symm, fun key hkey => .inl hkey⟩
  | cons a as ih =>
    obtain ⟨hlawful, htexts, hnames⟩ := ih (lawful_collect h a)
    refine ⟨hlawful, ?_, ?_⟩
    · intro key hkey
      rw [List.foldl_cons, htexts key hkey, texts_collect args a hkey, Argument.textsOf_cons,
        List.append_assoc]
    · intro key hkey
      rcases hnames key hkey with hold | ⟨hne, value, hvalue⟩
      · rcases mem_names_collect hold with hold | ⟨hne, value, rfl⟩
        · exact .inl hold
        · exact .inr ⟨hne, value, List.mem_cons_self ..⟩
      · exact .inr ⟨hne, value, List.mem_cons_of_mem _ hvalue⟩

theorem holds_ofArguments (as : List Argument) : (ofArguments as).Holds as := by
  have hempty : Lawful [] := List.nodup_nil
  obtain ⟨hlawful, htexts, hnames⟩ := foldl_collect_spec hempty as
  have hflags : ∀ key ∈ (as.foldl Argument.collect []).map Prod.fst,
      key ≠ bareName ∧ ∃ value, .flag key value ∈ as :=
    fun key hkey => (hnames key hkey).resolve_left List.not_mem_nil
  refine ⟨?_, ?_, ?_, ?_⟩
  · exact List.nodup_cons.mpr ⟨fun hbare => (hflags bareName hbare).1 rfl, hlawful⟩
  · rw [positional, ofArguments, texts_cons, if_pos rfl]
    rfl
  · intro key hkey
    rw [ofArguments, texts_cons, if_neg hkey, htexts key hkey]
    rfl
  · intro key hkey
    rcases List.mem_cons.mp hkey with rfl | hkey
    · exact .inl rfl
    · exact .inr (hflags key hkey).2

end Args

namespace Pipeline

/-- The words of each stage are read as arguments from left to right, and its arguments hold what
was read. Nothing of it is lost exactly if no flag has the name of the bare words. -/
theorem arguments_kept_iff {text : String} {stages : Pipeline} (h : parse text = .ok stages) :
    ∃ lexemes, Lexeme.ofText text.toList = .ok lexemes ∧
      ∀ (i : Nat) (stage : Invocation), stages[i]? = some stage →
        ∃ name words as, (Lexeme.segments lexemes)[i]? = some (name :: words) ∧
          stage.name = name.text ∧ Argument.Reads words as ∧ stage.args.Holds as ∧
          (stage.args.Keeps as ↔ ∀ value, .flag Args.bareName value ∉ as) := by
  obtain ⟨lexemes, hlexemes, hspelled⟩ := spelledBy_of_parse h
  refine ⟨lexemes, hlexemes, ?_⟩
  intro i stage hstage
  obtain ⟨ws, hws, name, words, as, rfl, -, -, hreads, rfl⟩ := hspelled i stage hstage
  have hholds := Args.holds_ofArguments as
  exact ⟨name, words, as, hws, rfl, hreads, hholds, hholds.keeps_iff⟩

/-- A flag that is repeated, with a value of each kind, and a bare word between. -/
theorem arguments_kept_of_repeated_flag :
    let stage : Invocation :=
      ⟨"a", [("_", .many ["b", "--k"]), ("k", .many ["1", "x y", "true"]), ("n", .single "")]⟩
    let words : List Word := [⟨"--k=1", false⟩, ⟨"b", false⟩, ⟨"--k", false⟩, ⟨"x y", true⟩,
      ⟨"--k", false⟩, ⟨"--n=", false⟩, ⟨"--", false⟩, ⟨"--k", false⟩]
    parse "a --k=1 b --k 'x y' --k --n= -- --k" = .ok [stage] ∧
      ∃ as, Argument.Reads words as ∧ stage.args.Keeps as := by
  intro stage words
  have hparse : parse "a --k=1 b --k 'x y' --k --n= -- --k" = .ok [stage] := by decide +kernel
  refine ⟨hparse, ?_⟩
  obtain ⟨lexemes, hlexemes, hstages⟩ := arguments_kept_iff hparse
  have hwords : Lexeme.ofText "a --k=1 b --k 'x y' --k --n= -- --k".toList =
      .ok ((⟨"a", false⟩ :: words).map .word) := by decide +kernel
  obtain rfl := Except.ok.inj (hwords.symm.trans hlexemes)
  obtain ⟨name, ws, as, hsegment, -, hreads, -, hkeeps⟩ := hstages 0 stage rfl
  rw [Lexeme.segments_words] at hsegment
  obtain ⟨rfl, rfl⟩ := List.cons.inj (Option.some.inj hsegment)
  have hread : Argument.Reads words [.flag "k" "1", .bare "b", .flag "k" "x y", .flag "k" "true",
      .flag "n" "", .bare "--k"] := Argument.reads_of_ofWords (by decide +kernel)
  obtain rfl := hreads.unique hread
  exact ⟨_, hread, hkeeps.mpr (by simp [Args.bareName])⟩

/-- The value of a flag that has the name of the bare words is not found anywhere. -/
theorem flag_of_bare_name_lost :
    let words : List Word := [⟨"--_=date", false⟩, ⟨"-u", false⟩]
    let stage : Invocation := ⟨"exec", [("_", .many ["-u"])]⟩
    Lexeme.ofText "exec --_=date -u".toList = .ok ((⟨"exec", false⟩ :: words).map .word) ∧
      parse "exec --_=date -u" = .ok [stage] ∧
      Argument.Reads words [.flag "_" "date", .bare "-u"] ∧
      ¬ stage.args.Keeps [.flag "_" "date", .bare "-u"] := by
  intro words stage
  refine ⟨by decide +kernel, by decide +kernel, Argument.reads_of_ofWords (by decide +kernel), ?_⟩
  intro hkeeps
  exact absurd (hkeeps "_") (by decide)

/-- The first `--` among the words of a stage. It makes the words after it bare, behind what the
words before it say, exactly if the word before it is no flag that waits for its value. Else that
flag has the `--` for its value, where it would have said `true`, and the words after it are read
anew. -/
theorem terminator_ends_flags_iff {text : String} {stages : Pipeline}
    (h : parse text = .ok stages) :
    ∃ lexemes, Lexeme.ofText text.toList = .ok lexemes ∧
      ∀ (i : Nat) (stage : Invocation) (name t : Word) (before after : List Word),
        stages[i]? = some stage →
        (Lexeme.segments lexemes)[i]? = some (name :: (before ++ t :: after)) →
        t.Terminator → (∀ w ∈ before, ¬ w.Terminator) →
        ∃ as bs, Argument.Reads before as ∧ Argument.Reads (before ++ t :: after) bs ∧
          stage.args.Holds bs ∧
          (bs = as ++ after.map (fun w => .bare w.text) ↔
            ∀ f ∈ before.getLast?, ¬ f.Awaits) ∧
          ∀ f ∈ before.getLast?, ∀ flag, f.Calls flag → ∃ front more,
            as = front ++ [.flag flag "true"] ∧ bs = front ++ .flag flag "--" :: more ∧
              Argument.Reads after more := by
  obtain ⟨lexemes, hlexemes, hspelled⟩ := spelledBy_of_parse h
  refine ⟨lexemes, hlexemes, ?_⟩
  intro i stage name t before after hstage hsegment hterminator hopen
  obtain ⟨ws, hws, head, args, bs, rfl, -, -, hreads, rfl⟩ := hspelled i stage hstage
  rw [hsegment] at hws
  obtain ⟨rfl, rfl⟩ := List.cons.inj (Option.some.inj hws)
  have hholds := Args.holds_ofArguments bs
  by_cases hwaits : ∃ f ∈ before.getLast?, f.Awaits
  · obtain ⟨f, hf, hawaits⟩ := hwaits
    obtain ⟨flag, hcalls⟩ := Word.awaits_iff.mp hawaits
    obtain ⟨front, rfl⟩ := List.getLast?_eq_some_iff.mp hf
    obtain ⟨as, more, rfl, hfront, hrest⟩ :=
      hreads.append_flag_terminator hopen hcalls hterminator
    refine ⟨as ++ [.flag flag "true"], _, hfront, hreads, hholds, ?_, ?_⟩
    · refine iff_of_false ?_ fun hnone => hnone f hf hawaits
      intro heq
      rw [List.append_assoc, List.append_cancel_left_eq] at heq
      exact absurd (List.cons.inj heq).1 (by simp)
    · intro g hg name hname
      obtain rfl := Option.some.inj (hf.symm.trans hg)
      obtain rfl := hcalls.unique hname
      exact ⟨as, more, rfl, rfl, hrest⟩
  · have hnone : ∀ f ∈ before.getLast?, ¬ f.Awaits := by
      simpa using hwaits
    obtain ⟨as, cs, rfl, hbefore, hrest⟩ :=
      hreads.append_inv hopen fun f hf hawaits => absurd hawaits (hnone f hf)
    obtain rfl := hrest.unique (.terminator hterminator)
    refine ⟨as, _, hbefore, hreads, hholds, iff_of_true rfl hnone, ?_⟩
    intro f hf flag hcalls
    exact absurd (Word.awaits_iff.mpr ⟨flag, hcalls⟩) (hnone f hf)

/-- A flag with a value of its own and a bare word are before the `--`, a flag and another `--`
after it. -/
theorem terminator_ends_flags_behind_value :
    let before : List Word := [⟨"x", false⟩, ⟨"--k=1", false⟩, ⟨"y", false⟩]
    let t : Word := ⟨"--", false⟩
    let after : List Word := [⟨"--z", false⟩, ⟨"--", false⟩]
    let stage : Invocation := ⟨"a", [("_", .many ["x", "y", "--z", "--"]), ("k", .single "1")]⟩
    parse "a x --k=1 y -- --z --" = .ok [stage] ∧ t.Terminator ∧ (∀ w ∈ before, ¬ w.Terminator) ∧
      ∃ as, Argument.Reads before as ∧
        stage.args.Holds (as ++ after.map fun w => .bare w.text) := by
  intro before t after stage
  have hparse : parse "a x --k=1 y -- --z --" = .ok [stage] := by decide +kernel
  have hterminator : t.Terminator := ⟨rfl, by decide⟩
  have hopen : ∀ w ∈ before, ¬ w.Terminator := by
    simp [before, Word.Terminator]
  refine ⟨hparse, hterminator, hopen, ?_⟩
  obtain ⟨lexemes, hlexemes, hstages⟩ := terminator_ends_flags_iff hparse
  have hwords : Lexeme.ofText "a x --k=1 y -- --z --".toList =
      .ok ((⟨"a", false⟩ :: (before ++ t :: after)).map .word) := by decide +kernel
  obtain rfl := Except.ok.inj (hwords.symm.trans hlexemes)
  obtain ⟨as, bs, hbefore, -, hholds, hiff, -⟩ :=
    hstages 0 stage ⟨"a", false⟩ t before after rfl (by rw [Lexeme.segments_words]; rfl) hterminator
      hopen
  have hlast : ∀ f ∈ before.getLast?, ¬ f.Awaits := by
    rintro f ⟨⟩ ⟨hflag, -⟩
    exact absurd (Word.isFlag_iff.mpr hflag) (by decide)
  exact ⟨as, hbefore, hiff.mpr hlast ▸ hholds⟩

/-- A flag that waits for its value takes the `--`, and the word after it is a flag. -/
theorem terminator_taken_for_value :
    let before : List Word := [⟨"--k", false⟩]
    let t : Word := ⟨"--", false⟩
    let after : List Word := [⟨"--x", false⟩]
    let stage : Invocation :=
      ⟨"a", [("_", .many []), ("k", .single "--"), ("x", .single "true")]⟩
    Lexeme.ofText "a --k -- --x".toList =
        .ok ((⟨"a", false⟩ :: (before ++ t :: after)).map .word) ∧
      parse "a --k -- --x" = .ok [stage] ∧ t.Terminator ∧ (∀ w ∈ before, ¬ w.Terminator) ∧
      Argument.Reads before [.flag "k" "true"] ∧
      ¬ stage.args.Holds ([.flag "k" "true"] ++ after.map fun w => .bare w.text) := by
  intro before t after stage
  refine ⟨by decide +kernel, by decide +kernel, ⟨rfl, by decide⟩, ?_, ?_, ?_⟩
  · simp [before, Word.Terminator]
  · exact Argument.reads_of_ofWords (by decide +kernel)
  · intro hholds
    exact absurd hholds.bare (by decide)

end Pipeline

end Sluice
