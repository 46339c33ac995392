import Mathlib.Data.List.Basic
import Sluice.CommandLine.ModeWords

/-!
The mode words of a pipeline. A scan from left to right tells the values that the mode is given from
the words that stay, and a last `--mode` that nothing follows leaves it incomplete. Stripping does
what the scan says: the last value counts, whatever was given before it, and all other words stay in
their order. Among these no mode word is left, so stripping them again changes nothing.
-/

namespace Sluice

def Mode.word : Mode → String
  | .human => "human"
  | .tool => "tool"

namespace CommandLine

/-- A word that gives the mode a value, or that the value follows. -/
def IsModeWord (word : String) : Prop :=
  word = "--mode" ∨ "--mode=".toList <+: word.toList

/-- What a scan has told apart: the values given to the mode, the words that stay, and whether no
value is missing at the end. -/
structure Scan where
  values : List String
  others : List String
  complete : Bool

/-- The scan of some words from left to right. The word after `--mode` is its value whatever it
looks like, so a value is never looked at as a mode word. -/
inductive Scans : List String → Scan → Prop where
  | done : Scans [] ⟨[], [], true⟩
  | missing : Scans ["--mode"] ⟨[], [], false⟩
  | apart {value : String} {rest values others : List String} {complete : Bool} :
      Scans rest ⟨values, others, complete⟩ →
      Scans ("--mode" :: value :: rest) ⟨value :: values, others, complete⟩
  | joined {word value : String} {rest values others : List String} {complete : Bool} :
      word = "--mode=" ++ value → Scans rest ⟨values, others, complete⟩ →
      Scans (word :: rest) ⟨value :: values, others, complete⟩
  | other {word : String} {rest values others : List String} {complete : Bool} :
      ¬ IsModeWord word → Scans rest ⟨values, others, complete⟩ →
      Scans (word :: rest) ⟨values, word :: others, complete⟩

theorem isModeWord_joined (value : String) : IsModeWord ("--mode=" ++ value) := by
  right
  rw [String.toList_append]
  exact List.prefix_append _ _

theorem joined_eq_iff {value value' : String} :
    "--mode=" ++ value = "--mode=" ++ value' ↔ value = value' := by
  rw [← String.toList_inj, String.toList_append, String.toList_append, List.append_cancel_left_eq,
    String.toList_inj]

/-- A word that holds its value is no `--mode`, for it is longer. -/
theorem joined_ne (value : String) : "--mode=" ++ value ≠ "--mode" := by
  intro h
  have hlength := congrArg (fun word => word.toList.length) h
  rw [String.toList_append, List.length_append] at hlength
  have hseven : "--mode=".toList.length = 7 := rfl
  have hsix : "--mode".toList.length = 6 := rfl
  omega

/-- A scan comes out one way only. -/
theorem Scans.unique {words : List String} {s s' : Scan} (h : Scans words s) (h' : Scans words s') :
    s = s' := by
  induction h generalizing s' with
  | done =>
    cases h'
    rfl
  | missing =>
    cases h' with
    | missing => rfl
    | joined hword _ => exact absurd hword.symm (joined_ne _)
    | other hword _ => exact absurd (.inl rfl) hword
  | apart _ ih =>
    cases h' with
    | apart h' =>
      cases ih h'
      rfl
    | joined hword _ => exact absurd hword.symm (joined_ne _)
    | other hword _ => exact absurd (.inl rfl) hword
  | joined hword h ih =>
    cases h' with
    | missing => exact absurd hword.symm (joined_ne _)
    | apart h' => exact absurd hword.symm (joined_ne _)
    | joined hword' h' =>
      obtain rfl := joined_eq_iff.mp (hword.symm.trans hword')
      cases ih h'
      rfl
    | other hword' _ => exact absurd (hword ▸ isModeWord_joined _) hword'
  | other hword h ih =>
    cases h' with
    | missing => exact absurd (.inl rfl) hword
    | apart h' => exact absurd (.inl rfl) hword
    | joined hword' h' => exact absurd (hword' ▸ isModeWord_joined _) hword
    | other _ h' =>
      cases ih h'
      rfl

theorem exists_scans (words : List String) : ∃ s, Scans words s := by
  match words with
  | [] => exact ⟨_, .done⟩
  | word :: rest =>
    by_cases hword : IsModeWord word
    · rcases hword with rfl | ⟨value, hvalue⟩
      · match rest with
        | [] => exact ⟨_, .missing⟩
        | value :: rest =>
          obtain ⟨s, hs⟩ := exists_scans rest
          exact ⟨_, .apart hs⟩
      · have hjoined : word = "--mode=" ++ String.ofList value := by
          rw [← String.toList_inj, ← hvalue, String.toList_append, @String.toList_ofList value]
        obtain ⟨s, hs⟩ := exists_scans rest
        exact ⟨_, .joined hjoined hs⟩
    · obtain ⟨s, hs⟩ := exists_scans rest
      exact ⟨_, .other hword hs⟩

/-- Words that are no mode words stay as they are. -/
theorem scans_of_free {words : List String} (h : ∀ word ∈ words, ¬ IsModeWord word) :
    Scans words ⟨[], words, true⟩ := by
  induction words with
  | nil => exact .done
  | cons word rest ih =>
    rw [List.forall_mem_cons] at h
    exact .other h.1 (ih h.2)

theorem Scans.free {words : List String} {s : Scan} (h : Scans words s) :
    ∀ word ∈ s.others, ¬ IsModeWord word := by
  induction h with
  | done => exact List.forall_mem_nil _
  | missing => exact List.forall_mem_nil _
  | apart _ ih => exact ih
  | joined _ _ ih => exact ih
  | other hword _ ih => exact List.forall_mem_cons.mpr ⟨hword, ih⟩

theorem Scans.sublist {words : List String} {s : Scan} (h : Scans words s) :
    s.others.Sublist words := by
  induction h with
  | done => exact .slnil
  | missing => exact List.nil_sublist _
  | apart _ ih => exact (ih.cons _).cons _
  | joined _ _ ih => exact ih.cons _
  | other _ _ ih => exact ih.cons_cons _

/-- The value that counts: the last one that is given, or the one from before. -/
def Scan.last (s : Scan) (mode : String) : String :=
  s.values.getLast?.getD mode

/-- A value takes the place of what was there before it. -/
theorem Scan.last_cons (value : String) (values others : List String) (complete : Bool)
    (mode : String) :
    (⟨value :: values, others, complete⟩ : Scan).last mode =
      (⟨values, others, complete⟩ : Scan).last value := by
  rw [last, List.getLast?_cons]
  rfl

theorem splitMode_joined (mode value : String) (rest : List String) :
    splitMode mode (("--mode=" ++ value) :: rest) = splitMode value rest := by
  have hstart : modeStart.isPrefixOf ("--mode=" ++ value).toList = true := by
    rw [String.toList_append, List.isPrefixOf_iff_prefix]
    exact List.prefix_append _ _
  have hvalue : String.ofList (("--mode=" ++ value).toList.drop modeStart.length) = value := by
    have happend : ("--mode=" ++ value).toList = modeStart ++ value.toList := String.toList_append
    have hdrop : (modeStart ++ value.toList).drop modeStart.length = value.toList := List.drop_left
    rw [happend, hdrop, String.ofList_toList]
  rw [splitMode.eq_def]
  simp only [modeOption, joined_ne, ↓reduceIte, hstart, hvalue]

theorem splitMode_other {word : String} (h : ¬ IsModeWord word) (mode : String)
    (rest : List String) :
    splitMode mode (word :: rest) =
      (splitMode mode rest).map fun (mode, words) => (mode, word :: words) := by
  obtain ⟨hne, hstart⟩ := not_or.mp h
  rw [← List.isPrefixOf_iff_prefix] at hstart
  rw [splitMode.eq_def]
  exact (if_neg hne).trans (if_neg hstart)

/-- Splitting follows the scan. -/
theorem splitMode_of_scans {words : List String} {s : Scan} (h : Scans words s) (mode : String) :
    splitMode mode words =
      if s.complete then .ok (s.last mode, s.others) else .error .missingValue := by
  induction h generalizing mode with
  | done => rfl
  | missing => rfl
  | @apart value rest values others complete _ ih =>
    rw [Scan.last_cons]
    exact ih value
  | @joined word value rest values others complete hword _ ih =>
    rw [Scan.last_cons, hword, splitMode_joined]
    exact ih value
  | @other word rest values others complete hword _ ih =>
    rw [splitMode_other hword, ih]
    cases complete <;> rfl

theorem mode?_eq_some_iff {name : String} {m : Mode} : mode? name = some m ↔ name = m.word := by
  constructor
  · intro h
    unfold mode? at h
    split at h
    · cases h
      rfl
    · cases h
      rfl
    · exact nomatch h
  · rintro rfl
    cases m <;> rfl

theorem mode?_eq_none_iff {name : String} :
    mode? name = none ↔ name ≠ "human" ∧ name ≠ "tool" := by
  rw [Option.eq_none_iff_forall_ne_some]
  constructor
  · intro h
    exact ⟨fun hname => h .human (mode?_eq_some_iff.mpr hname),
      fun hname => h .tool (mode?_eq_some_iff.mpr hname)⟩
  · rintro ⟨hhuman, htool⟩ m hm
    have hname := mode?_eq_some_iff.mp hm
    cases m with
    | human => exact hhuman hname
    | tool => exact htool hname

/-- Words are refused where a value is missing, or where the one that counts is no mode. -/
def Scan.Refused (s : Scan) (mode : String) : Prop :=
  s.complete = false ∨ s.last mode ≠ "human" ∧ s.last mode ≠ "tool"

theorem stripMode_of_scans {words : List String} {s : Scan} (h : Scans words s) (mode : String) :
    stripMode mode words =
      if s.complete then
        match mode? (s.last mode) with
        | some m => .ok (m, s.others)
        | none => .error (.notAMode (s.last mode))
      else .error .missingValue := by
  rw [stripMode, splitMode_of_scans h]
  cases s.complete <;> rfl

theorem stripMode_of_not_refused {words : List String} {s : Scan} (h : Scans words s)
    {mode : String} (hmode : ¬ s.Refused mode) :
    ∃ m : Mode, m.word = s.last mode ∧ stripMode mode words = .ok (m, s.others) := by
  obtain ⟨hcomplete, hname⟩ := not_or.mp hmode
  rw [Bool.not_eq_false] at hcomplete
  rw [← mode?_eq_none_iff] at hname
  obtain ⟨m, hm⟩ := Option.ne_none_iff_exists'.mp hname
  refine ⟨m, (mode?_eq_some_iff.mp hm).symm, ?_⟩
  rw [stripMode_of_scans h, if_pos hcomplete, hm]

theorem stripMode_of_refused {words : List String} {s : Scan} (h : Scans words s) {mode : String}
    (hmode : s.Refused mode) : ∃ e, stripMode mode words = .error e := by
  rw [stripMode_of_scans h]
  rcases hmode with hcomplete | hname
  · exact ⟨.missingValue, by rw [hcomplete]; rfl⟩
  · rw [mode?_eq_none_iff.mpr hname]
    cases s.complete with
    | true => exact ⟨.notAMode (s.last mode), rfl⟩
    | false => exact ⟨.missingValue, rfl⟩

/-- Words are scanned in one way only, and stripping them fails if and only if a `--mode` has no next
word or the value that counts is neither `human` nor `tool`. Else it gives this value and all words
that the mode has not taken, in their order. No mode word is among them, and stripping them again
with the mode that was found changes nothing. -/
theorem stripMode_exact (mode : String) (words : List String) :
    ∃ s : Scan, (∀ s', Scans words s' ↔ s' = s) ∧
      ((∃ e, stripMode mode words = .error e) ↔ s.Refused mode) ∧
      (¬ s.Refused mode → ∃ m : Mode, m.word = s.last mode ∧
        stripMode mode words = .ok (m, s.others) ∧ s.others.Sublist words ∧
        (∀ word ∈ s.others, ¬ IsModeWord word) ∧
        stripMode m.word s.others = .ok (m, s.others)) := by
  obtain ⟨s, hs⟩ := exists_scans words
  have hunique : ∀ s', Scans words s' ↔ s' = s :=
    fun s' => ⟨fun h => h.unique hs, fun h => h ▸ hs⟩
  refine ⟨s, hunique, ⟨?_, stripMode_of_refused hs⟩, ?_⟩
  · rintro ⟨e, he⟩
    by_contra hmode
    obtain ⟨m, -, hok⟩ := stripMode_of_not_refused hs hmode
    exact nomatch hok.symm.trans he
  · intro hmode
    obtain ⟨m, hm, hok⟩ := stripMode_of_not_refused hs hmode
    refine ⟨m, hm, hok, hs.sublist, hs.free, ?_⟩
    rw [stripMode_of_scans (scans_of_free hs.free)]
    cases m <;> rfl

/-- A value that looks like a mode word shifts what stands behind it. -/
example : stripMode "human" ["exec", "--mode", "--mode=x", "--mode=tool", "--mode", "--mode"] =
    .error (.notAMode "--mode") := by decide

end CommandLine

end Sluice
