import Mathlib.Data.List.Forall2
import Sluice.Proofs.Pipeline.Scanner
import Sluice.Proofs.Text.Cut

/-!
Which texts are pipelines. A text is refused for one of four reasons: it breaks off, it has a bar
with nothing on one of its sides, a segment does not begin with a command name, or a segment has a
flag without a name among its arguments. Every other text is accepted with one stage for each
segment.
-/

namespace Sluice

namespace Word

/-- A word of two dashes and more, not begun by a quote or an escape. -/
def Flag (w : Word) : Prop :=
  w.quoted = false ∧ ∃ c rest, w.text.toList = '-' :: '-' :: c :: rest

def Terminator (w : Word) : Prop :=
  w.quoted = false ∧ w.text.toList = ['-', '-']

/-- A flag that has an equals sign where its name should stand. -/
def Nameless (w : Word) : Prop :=
  w.quoted = false ∧ ∃ rest, w.text.toList = '-' :: '-' :: '=' :: rest

/-- A flag that takes the next word for its value unless that is a flag too. -/
def Awaits (w : Word) : Prop :=
  w.Flag ∧ '=' ∉ w.text.toList

variable {w : Word}

theorem isFlag_iff : w.isFlag = true ↔ w.Flag := by
  simp only [isFlag, Flag, Bool.and_eq_true, Bool.not_eq_true', List.isPrefixOf_iff_prefix,
    decide_eq_true_eq, and_assoc]
  apply and_congr_right
  intro _
  constructor
  · rintro ⟨⟨more, hmore⟩, hlength⟩
    rw [← hmore] at hlength ⊢
    cases more with
    | nil => exact absurd hlength (by decide)
    | cons c rest => exact ⟨c, rest, rfl⟩
  · rintro ⟨c, rest, htext⟩
    rw [htext]
    exact ⟨⟨c :: rest, rfl⟩, Nat.le_add_left 3 rest.length⟩

theorem isTerminator_iff : w.isTerminator = true ↔ w.Terminator := by
  simp [isTerminator, Terminator, ← String.toList_inj]

theorem Nameless.flag (h : w.Nameless) : w.Flag := by
  obtain ⟨hquoted, rest, htext⟩ := h
  exact ⟨hquoted, '=', rest, htext⟩

theorem Terminator.not_flag (h : w.Terminator) : ¬ w.Flag := by
  rintro ⟨-, c, rest, htext⟩
  rw [h.2] at htext
  exact nomatch htext

theorem isEmpty_flagParts (h : w.Flag) : w.flagParts.1.isEmpty = true ↔ w.Nameless := by
  obtain ⟨hquoted, c, rest, htext⟩ := h
  rw [String.isEmpty_iff, flagParts, Nameless, htext, and_iff_right hquoted, List.drop_succ_cons,
    List.drop_succ_cons, List.drop_zero]
  by_cases hc : c = '='
  · subst hc
    exact iff_of_true rfl ⟨rest, rfl⟩
  · have hne (cs : List Char) : String.ofList (c :: cs) ≠ "" := by
      simp [← String.toList_inj]
    rw [Text.cutAt?_cons_of_ne hc]
    refine iff_of_false ?_ (by simp [hc])
    cases Text.cutAt? ['='] rest with
    | none => exact hne rest
    | some parts => exact hne parts.1

theorem flagParts_eq_none (h : w.Flag) : w.flagParts.2 = none ↔ w.Awaits := by
  obtain ⟨-, c, rest, htext⟩ := id h
  have hmem : '=' ∉ w.text.toList ↔ '=' ∉ c :: rest := by
    rw [htext]
    simp
  rw [Awaits, and_iff_right h, hmem, ← Text.cutAt?_eq_none, flagParts, htext, List.drop_succ_cons,
    List.drop_succ_cons, List.drop_zero]
  cases Text.cutAt? ['='] (c :: rest) with
  | none => exact iff_of_true rfl rfl
  | some parts => exact iff_of_false nofun nofun

end Word

/-- Behind the word `previous` these words have a flag without a name that no `--` keeps from being a
flag: every `--` before it is taken for the value of the flag directly before that `--`. -/
def NamelessFlag (previous : Word) (ws : List Word) : Prop :=
  ∃ before w after, ws = before ++ w :: after ∧ w.Nameless ∧
    ∀ front f t back, previous :: before = front ++ f :: t :: back → t.Terminator → f.Awaits

section

variable {previous w : Word} {ws : List Word}

theorem not_namelessFlag_nil : ¬ NamelessFlag previous [] := by
  rintro ⟨before, w, after, hws, -⟩
  exact absurd hws (by simp)

theorem namelessFlag_cons : NamelessFlag previous (w :: ws) ↔
    w.Nameless ∨ (w.Terminator → previous.Awaits) ∧ NamelessFlag w ws := by
  constructor
  · rintro ⟨before, w', after, hws, hnameless, hbefore⟩
    cases before with
    | nil =>
      obtain ⟨rfl, -⟩ := List.cons.inj hws
      exact .inl hnameless
    | cons first before =>
      obtain ⟨rfl, rfl⟩ := List.cons.inj hws
      refine .inr ⟨hbefore [] previous w before rfl, before, w', after, rfl, hnameless, ?_⟩
      intro front f t back heq
      exact hbefore (previous :: front) f t back (congrArg _ heq)
  · rintro (hnameless | ⟨hw, before, w', after, rfl, hnameless, hbefore⟩)
    · refine ⟨[], w, ws, rfl, hnameless, ?_⟩
      intro front f t back heq
      exact absurd (congrArg List.length heq) (by simp; omega)
    · refine ⟨w :: before, w', after, rfl, hnameless, ?_⟩
      intro front f t back heq
      cases front with
      | nil =>
        obtain ⟨rfl, hrest⟩ := List.cons.inj heq
        obtain ⟨rfl, -⟩ := List.cons.inj hrest
        exact hw
      | cons first front => exact hbefore front f t back (List.cons.inj heq).2

theorem namelessFlag_flag_cons (hw : w.Flag) :
    NamelessFlag previous (w :: ws) ↔ w.Nameless ∨ NamelessFlag w ws := by
  have hterminator : w.Terminator → previous.Awaits := fun h => absurd hw h.not_flag
  rw [namelessFlag_cons, and_iff_right hterminator]

/-- A word that is no flag is passed over unless it ends the flags. -/
theorem namelessFlag_bare_cons (hw : ¬ w.Flag) (hterminator : w.Terminator → previous.Awaits) :
    NamelessFlag previous (w :: ws) ↔ NamelessFlag w ws := by
  rw [namelessFlag_cons, and_iff_right hterminator, or_iff_right (mt Word.Nameless.flag hw)]

end

theorem Except.map_error_iff {α β ε : Type} {f : α → β} {r : Except ε α} :
    (∃ e, r.map f = .error e) ↔ ∃ e, r = .error e := by
  cases r <;> simp [Except.map]

/-- The words behind a command name are refused exactly for a flag without a name. -/
theorem Argument.ofWords_error_iff (ws : List Word) (previous : Word) (h : ¬ previous.Awaits) :
    (∃ e, ofWords ws = .error e) ↔ NamelessFlag previous ws := by
  fun_induction ofWords ws generalizing previous with
  | case1 => exact iff_of_false nofun not_namelessFlag_nil
  | case2 w rest hterminator =>
    rw [Word.isTerminator_iff] at hterminator
    refine iff_of_false nofun ?_
    rw [namelessFlag_cons]
    rintro (hnameless | ⟨hawaits, -⟩)
    · exact hterminator.not_flag hnameless.flag
    · exact h (hawaits hterminator)
  | case3 w rest hterminator hflag ih =>
    rw [Word.isTerminator_iff] at hterminator
    rw [Bool.not_eq_true', ← Bool.not_eq_true, Word.isFlag_iff] at hflag
    rw [Except.map_error_iff, ih w (mt And.left hflag),
      namelessFlag_bare_cons hflag (absurd · hterminator)]
  | case4 w rest hterminator hflag name value hparts hname =>
    rw [Bool.not_not_eq, Word.isFlag_iff] at hflag
    have hnameless : w.Nameless := (Word.isEmpty_flagParts hflag).mp (by rw [hparts, hname])
    exact iff_of_true ⟨_, rfl⟩ ((namelessFlag_flag_cons hflag).mpr (.inl hnameless))
  | case5 w rest hterminator hflag name hname v hparts ih =>
    rw [Bool.not_not_eq, Word.isFlag_iff] at hflag
    have hnamed : ¬ w.Nameless := mt (Word.isEmpty_flagParts hflag).mpr (by rwa [hparts])
    have hawaits : ¬ w.Awaits := mt (Word.flagParts_eq_none hflag).mpr (by simp [hparts])
    rw [Except.map_error_iff, ih w hawaits, namelessFlag_flag_cons hflag, or_iff_right hnamed]
  | case6 w hterminator hflag name hname hparts =>
    rw [Bool.not_not_eq, Word.isFlag_iff] at hflag
    have hnamed : ¬ w.Nameless := mt (Word.isEmpty_flagParts hflag).mpr (by rwa [hparts])
    refine iff_of_false nofun ?_
    rw [namelessFlag_flag_cons hflag, or_iff_right hnamed]
    exact not_namelessFlag_nil
  | case7 w hterminator hflag name hname v after hv hparts ih =>
    rw [Bool.not_not_eq, Word.isFlag_iff] at hflag
    rw [Word.isFlag_iff] at hv
    have hnamed : ¬ w.Nameless := mt (Word.isEmpty_flagParts hflag).mpr (by rwa [hparts])
    rw [Except.map_error_iff, ih previous h, namelessFlag_flag_cons hflag, or_iff_right hnamed]
    -- The next word is a flag, which no flag takes for its value.
    rw [namelessFlag_flag_cons hv, namelessFlag_flag_cons hv]
  | case8 w hterminator hflag name hname v after hv hparts ih =>
    rw [Bool.not_not_eq, Word.isFlag_iff] at hflag
    rw [Word.isFlag_iff] at hv
    have hnamed : ¬ w.Nameless := mt (Word.isEmpty_flagParts hflag).mpr (by rwa [hparts])
    have hawaits : w.Awaits := (Word.flagParts_eq_none hflag).mp (by rw [hparts])
    rw [Except.map_error_iff, ih v (mt And.left hv),
      namelessFlag_flag_cons hflag, or_iff_right hnamed,
      namelessFlag_bare_cons hv fun _ => hawaits]

namespace Invocation

def Misspelled : List Word → Prop
  | [] => True
  | name :: args => name.text = "" ∨ name.Flag ∨ NamelessFlag name args

theorem ofWords_error_iff (last index : Nat) (ws : List Word) :
    (∃ e, ofWords last index ws = .error e) ↔ Misspelled ws := by
  cases ws with
  | nil =>
    refine iff_of_true ?_ trivial
    simp only [ofWords]
    split_ifs
    · exact ⟨_, rfl⟩
    · exact ⟨_, rfl⟩
    · exact ⟨_, rfl⟩
  | cons name args =>
    rw [ofWords, Misspelled, ← Word.isFlag_iff, ← String.isEmpty_iff]
    split_ifs with hflag hempty
    · exact iff_of_true ⟨_, rfl⟩ (.inr (.inl hflag))
    · exact iff_of_true ⟨_, rfl⟩ (.inl hempty)
    · rw [Except.map_error_iff, or_iff_right hempty, or_iff_right hflag]
      rw [Word.isFlag_iff] at hflag
      exact Argument.ofWords_error_iff args name (mt And.left hflag)

def NamedBy (stage : Invocation) (ws : List Word) : Prop :=
  ∃ name args, ws = name :: args ∧ stage.name = name.text

theorem namedBy_of_ofWords {last index : Nat} {ws : List Word} {stage : Invocation}
    (h : ofWords last index ws = .ok stage) : stage.NamedBy ws := by
  cases ws with
  | nil =>
    rw [ofWords] at h
    split_ifs at h
  | cons name args =>
    rw [ofWords] at h
    split_ifs at h
    cases hargs : Argument.ofWords args with
    | error e =>
      rw [hargs] at h
      exact nomatch h
    | ok as =>
      rw [hargs] at h
      cases h
      exact ⟨name, args, rfl, rfl⟩

end Invocation

namespace Pipeline

theorem ofSegments_error_iff (last index : Nat) (segments : List (List Word)) :
    (∃ e, ofSegments last index segments = .error e) ↔
      ∃ ws ∈ segments, Invocation.Misspelled ws := by
  induction segments generalizing index with
  | nil => exact iff_of_false nofun nofun
  | cons ws segments ih =>
    rw [List.exists_mem_cons_iff, ← Invocation.ofWords_error_iff last index, ← ih (index + 1),
      ofSegments]
    cases Invocation.ofWords last index ws with
    | error e => exact iff_of_true ⟨e, rfl⟩ (.inl ⟨e, rfl⟩)
    | ok stage =>
      rw [or_iff_right nofun]
      exact Except.map_error_iff

theorem namedBy_of_ofSegments {last index : Nat} {segments : List (List Word)} {stages : Pipeline}
    (h : ofSegments last index segments = .ok stages) :
    List.Forall₂ Invocation.NamedBy stages segments := by
  induction segments generalizing index stages with
  | nil =>
    cases h
    exact .nil
  | cons ws segments ih =>
    rw [ofSegments] at h
    cases hstage : Invocation.ofWords last index ws with
    | error e =>
      rw [hstage] at h
      exact nomatch h
    | ok stage =>
      cases hstages : ofSegments last (index + 1) segments with
      | error e =>
        rw [hstage, hstages] at h
        exact nomatch h
      | ok more =>
        rw [hstage, hstages] at h
        cases h
        exact .cons (Invocation.namedBy_of_ofWords hstage) (ih hstages)

/-- A text that is no pipeline: it ends inside quotes or behind a backslash, it has a bar and a
segment without words, a segment begins with an empty text or a flag, or a segment has a flag
without a name behind its first word. -/
inductive Malformed (cs : List Char) : Prop
  | breaksOff : Piece.BreaksOff cs → Malformed cs
  | emptySegment {ps : List Piece} : Piece.Spells ps cs → .bar ∈ ps → [] ∈ Piece.segments ps →
      Malformed cs
  | badName {ps : List Piece} {name : Word} {args : List Word} : Piece.Spells ps cs →
      name :: args ∈ Piece.segments ps → name.text = "" ∨ name.Flag → Malformed cs
  | namelessFlag {ps : List Piece} {name : Word} {args : List Word} : Piece.Spells ps cs →
      name :: args ∈ Piece.segments ps → NamelessFlag name args → Malformed cs

/-- The stages of a row of pieces are those of its segments, none for a row without bars and
words. -/
theorem parse_of_spells {ps : List Piece} {text : String} (h : Piece.Spells ps text.toList) :
    parse text = if Piece.segments ps = [[]] then .ok []
      else ofSegments ((Piece.segments ps).length - 1) 0 (Piece.segments ps) := by
  obtain ⟨ls, hls, hsegments⟩ := Lexeme.ofText_of_spells h
  have hempty : ls.isEmpty = true ↔ Piece.segments ps = [[]] := by
    rw [List.isEmpty_iff, ← hsegments, Lexeme.segments_eq_singleton_nil]
  rw [parse, hls]
  change ofLexemes ls = _
  simp only [ofLexemes, hempty, hsegments]

theorem parse_of_breaksOff {text : String} (h : Piece.BreaksOff text.toList) :
    ∃ e, parse text = .error e := by
  obtain ⟨e, he⟩ := (Lexeme.ofText_error_iff text.toList).mpr h
  exact ⟨e, by rw [parse, he]; rfl⟩

theorem parse_error_iff_of_spells {ps : List Piece} {text : String}
    (h : Piece.Spells ps text.toList) :
    (∃ e, parse text = .error e) ↔
      Piece.segments ps ≠ [[]] ∧ ∃ ws ∈ Piece.segments ps, Invocation.Misspelled ws := by
  rw [parse_of_spells h, ← ofSegments_error_iff ((Piece.segments ps).length - 1) 0]
  split_ifs with hempty
  · exact iff_of_false nofun fun hne => hne.1 hempty
  · exact (and_iff_right hempty).symm

/-- A segment without words has a bar beside it unless it is the only one. -/
theorem bar_mem_of_nil_mem {ps : List Piece} (hne : Piece.segments ps ≠ [[]])
    (h : [] ∈ Piece.segments ps) : .bar ∈ ps := by
  by_contra hbar
  have hlength : (Piece.segments ps).length = 1 := by
    rw [Piece.length_segments, List.count_eq_zero_of_not_mem hbar]
  obtain ⟨ws, hws⟩ := List.length_eq_one_iff.mp hlength
  rw [hws, List.mem_singleton] at h
  exact hne (by rw [hws, ← h])

theorem malformed_of_parse_error {text : String} (h : ∃ e, parse text = .error e) :
    Malformed text.toList := by
  rcases Piece.spells_or_breaksOff text.toList with ⟨ps, hps⟩ | hbreaks
  · obtain ⟨hne, ws, hws, hmisspelled⟩ := (parse_error_iff_of_spells hps).mp h
    match ws, hmisspelled with
    | [], _ => exact .emptySegment hps (bar_mem_of_nil_mem hne hws) hws
    | _ :: _, .inl hname => exact .badName hps hws (.inl hname)
    | _ :: _, .inr (.inl hname) => exact .badName hps hws (.inr hname)
    | _ :: _, .inr (.inr hflag) => exact .namelessFlag hps hws hflag
  · exact .breaksOff hbreaks

theorem Malformed.parse_error {text : String} (h : Malformed text.toList) :
    ∃ e, parse text = .error e := by
  have hrefused {ps : List Piece} {name : Word} {args : List Word}
      (hps : Piece.Spells ps text.toList) (hmem : name :: args ∈ Piece.segments ps)
      (hmisspelled : Invocation.Misspelled (name :: args)) : ∃ e, parse text = .error e := by
    refine (parse_error_iff_of_spells hps).mpr ⟨?_, _, hmem, hmisspelled⟩
    intro heq
    rw [heq] at hmem
    exact List.cons_ne_nil name args (List.mem_singleton.mp hmem)
  cases h with
  | breaksOff hbreaks => exact parse_of_breaksOff hbreaks
  | emptySegment hps hbar hnil =>
    refine (parse_error_iff_of_spells hps).mpr ⟨?_, [], hnil, trivial⟩
    rw [ne_eq, Piece.segments_eq_singleton_nil]
    exact fun hempty => hempty.1 hbar
  | badName hps hmem hname => exact hrefused hps hmem (or_assoc.mp (.inl hname))
  | namelessFlag hps hmem hflag => exact hrefused hps hmem (.inr (.inr hflag))

/-- A text is refused exactly if it is malformed. Any other text has no stages if it has no bar and
no word, and else one stage for each segment, one more than there are bars. -/
theorem parse_accepts_exactly_grammar (text : String) :
    ((∃ e, parse text = .error e) ↔ Malformed text.toList) ∧
      (Malformed text.toList ∨ ∃ ps stages, Piece.Spells ps text.toList ∧
        parse text = .ok stages ∧
        if .bar ∉ ps ∧ Piece.words ps = [] then stages = []
        else List.Forall₂ Invocation.NamedBy stages (Piece.segments ps) ∧
          stages.length = ps.count .bar + 1) := by
  refine ⟨⟨malformed_of_parse_error, Malformed.parse_error⟩, ?_⟩
  by_cases hmalformed : Malformed text.toList
  · exact .inl hmalformed
  right
  obtain ⟨ps, hps⟩ := (Piece.spells_or_breaksOff text.toList).resolve_right
    (mt Malformed.breaksOff hmalformed)
  cases hparse : parse text with
  | error e => exact absurd (malformed_of_parse_error ⟨e, hparse⟩) hmalformed
  | ok stages =>
    refine ⟨ps, stages, hps, rfl, ?_⟩
    rw [parse_of_spells hps] at hparse
    simp only [← Piece.segments_eq_singleton_nil]
    split_ifs at hparse ⊢ with hempty
    · exact (Except.ok.inj hparse).symm
    · have hstages := namedBy_of_ofSegments hparse
      exact ⟨hstages, hstages.length_eq.trans (Piece.length_segments ps)⟩

-- A `--` that is the value of a flag ends nothing, so the flag without a name behind it is one.
example : (parse "a --k -- --=x").isOk = false ∧ (parse "a -- --=x").isOk = true := by
  decide +kernel

end Pipeline

end Sluice
