import Sluice.Command.Exec
import Sluice.Proofs.Pipeline.Arguments
import Sluice.Proofs.Stream.Laws
import Sluice.Proofs.Text.Joined

/-!
The switch of `exec` between the words of its command. The word behind `--json` is read as its value,
so the switch has no place among the arguments: its value is put in front of the other words, and a
word that could switch it on or off is not taken for a part of the command.
-/

namespace Sluice

namespace Exec

/-- A word that would switch `--json` on or off as its value. -/
def isSwitchWord (word : String) : Bool :=
  switchWords.any fun s => Args.isWord s word

def quoted (words : List String) : List Word :=
  words.map fun s => ⟨s, true⟩

def typed (words : List String) : List Word :=
  ⟨"exec", false⟩ :: quoted words

def typedWithSwitch (front back : List String) : List Word :=
  ⟨"exec", false⟩ :: (quoted front ++ ⟨"--json", false⟩ :: quoted back)

/-- Whether the switch is on and the words of the command, where the switch stands between them. -/
def taken (front : List String) : List String → Bool × List String
  | [] => (true, front)
  | w :: back =>
    if isSwitchWord w then (Args.enabled [("json", .single w)] "json", front ++ back)
    else (true, w :: (front ++ back))

end Exec

namespace Argument

open Exec (quoted)

theorem reads_quoted (words : List String) : Reads (quoted words) (words.map .bare) := by
  induction words with
  | nil => exact .nil
  | cons w words ih =>
    have hflag : ¬ Word.Flag ⟨w, true⟩ := fun h => Bool.noConfusion h.1
    have hterminator : ¬ Word.Terminator ⟨w, true⟩ := fun h => Bool.noConfusion h.1
    exact .bare hflag hterminator ih

/-- The switch as it is read in front of quoted words: the first of them is its value. -/
def switch : List String → List Argument
  | [] => [.flag "json" "true"]
  | w :: rest => .flag "json" w :: rest.map .bare

theorem reads_switch (words : List String) :
    Reads (⟨"--json", false⟩ :: quoted words) (switch words) := by
  have hcalls : Word.Calls ⟨"--json", false⟩ "json" := ⟨rfl, by decide, by decide, by decide⟩
  cases words with
  | nil => exact .alone hcalls nofun .nil
  | cons w words => exact .taken hcalls (fun h => Bool.noConfusion h.1) (reads_quoted words)

/-- Quoted words take nothing from what follows them, and nothing is taken from them. -/
theorem reads_quoted_append (front : List String) {ws : List Word} {as : List Argument}
    (h : Reads ws as) : Reads (quoted front ++ ws) (front.map .bare ++ as) := by
  have hquoted : ∀ w ∈ quoted front, w.quoted = true := by
    simp [quoted]
  refine (reads_quoted front).append h (fun w hw hterminator => ?_) fun w hw hawaits => ?_
  · exact Bool.noConfusion (hterminator.1.symm.trans (hquoted w hw))
  · exact Bool.noConfusion (hawaits.1.1.symm.trans (hquoted w (List.mem_of_getLast? hw)))

end Argument

namespace Exec

variable {stage : Invocation} {words front back : List String}

theorem bareTexts_map_bare (words : List String) :
    (words.map Argument.bare).filterMap Argument.bareText? = words := by
  rw [List.filterMap_map]
  exact List.filterMap_some

theorem textsOf_map_bare (words : List String) :
    Argument.textsOf (words.map Argument.bare) "json" = [] := by
  simp [Argument.textsOf, Argument.name, Args.bareName]

theorem commandWords_typed (h : stage.SpelledBy (typed words)) :
    stage.name = "exec" ∧ commandWords stage.args = (false, words) := by
  obtain ⟨name, args, as, hws, -, -, hreads, rfl⟩ := h
  obtain ⟨rfl, rfl⟩ := List.cons.inj hws
  obtain rfl := hreads.unique (Argument.reads_quoted words)
  have hholds := Args.holds_ofArguments (words.map Argument.bare)
  have hflag : Args.flag? (.ofArguments (words.map Argument.bare)) "json" = none := by
    rw [Args.flag?, hholds.flags "json" (by decide), textsOf_map_bare]
    rfl
  refine ⟨rfl, ?_⟩
  rw [commandWords, hflag, hholds.bare, bareTexts_map_bare]

/-- What is left of a switch is its value: it does not matter between which words it stood. -/
theorem commandWords_ofArguments (front rest : List String) (value : String) :
    commandWords (.ofArguments (front.map .bare ++ .flag "json" value :: rest.map .bare)) =
      if isSwitchWord value then (Args.enabled [("json", .single value)] "json", front ++ rest)
      else (true, value :: (front ++ rest)) := by
  have hholds := Args.holds_ofArguments
    (front.map .bare ++ .flag "json" value :: rest.map Argument.bare)
  have hflag : Args.flag? (.ofArguments (front.map .bare ++ .flag "json" value ::
      rest.map Argument.bare)) "json" = some value := by
    have hsplit : Argument.textsOf (front.map .bare ++ .flag "json" value ::
        rest.map Argument.bare) "json" =
          Argument.textsOf (front.map .bare) "json" ++
            (value :: Argument.textsOf (rest.map .bare) "json") := by
      simp [Argument.textsOf, Argument.name, Argument.text]
    rw [Args.flag?, hholds.flags "json" (by decide), hsplit, textsOf_map_bare, textsOf_map_bare]
    rfl
  have hwords : Args.positional (.ofArguments (front.map .bare ++ .flag "json" value ::
      rest.map Argument.bare)) = front ++ rest := by
    rw [hholds.bare, List.filterMap_append, bareTexts_map_bare]
    exact congrArg (front ++ ·) (bareTexts_map_bare rest)
  simp only [commandWords, hflag, hwords, isSwitchWord, Args.enabled]
  rfl

theorem commandWords_typedWithSwitch (h : stage.SpelledBy (typedWithSwitch front back)) :
    stage.name = "exec" ∧ commandWords stage.args = taken front back := by
  obtain ⟨name, args, as, hws, -, -, hreads, rfl⟩ := h
  obtain ⟨rfl, rfl⟩ := List.cons.inj hws
  obtain rfl := hreads.unique (Argument.reads_quoted_append front (Argument.reads_switch back))
  refine ⟨rfl, ?_⟩
  cases back with
  | nil =>
    have hcommand := commandWords_ofArguments front [] "true"
    rw [List.append_nil] at hcommand
    exact hcommand
  | cons w back => exact commandWords_ofArguments front back w

/-- A word in front of others is where it was behind them exactly if all of them are the same. -/
theorem cons_eq_append_singleton_iff {w : String} :
    w :: front = front ++ [w] ↔ ∀ v ∈ front, v = w := by
  induction front with
  | nil => simp
  | cons v front ih =>
    rw [List.cons_append, List.cons.injEq, List.forall_mem_cons]
    constructor
    · rintro ⟨rfl, hrest⟩
      exact ⟨rfl, ih.mp hrest⟩
    · rintro ⟨rfl, hrest⟩
      exact ⟨rfl, ih.mpr hrest⟩

/-- The words are those that stand there exactly if the word behind the switch does not have to be
moved, and could not be the value of the switch. -/
theorem taken_eq_iff : taken front back = (true, front ++ back) ↔
    ∀ w ∈ back.head?, isSwitchWord w = false ∧ ∀ v ∈ front, v = w := by
  cases back with
  | nil => simp [taken]
  | cons w back =>
    rw [taken]
    by_cases hswitch : isSwitchWord w = true
    · refine iff_of_false ?_ ?_
      · intro heq
        rw [if_pos hswitch] at heq
        have hlength := congrArg (fun p => p.2.length) heq
        simp only [List.length_append, List.length_cons] at hlength
        omega
      · simp [hswitch]
    · have hmoved : w :: (front ++ back) = front ++ w :: back ↔ w :: front = front ++ [w] := by
        rw [← List.cons_append, List.append_cons front w back, List.append_left_inj]
      simp [hswitch, hmoved, cons_eq_append_singleton_iff]

/-- A command line without one of its words is shorter. -/
theorem intercalate_append_ne (w : String) (hne : front ++ back ≠ []) :
    " ".intercalate (front ++ back) ≠ " ".intercalate (front ++ w :: back) := by
  intro heq
  have hpos : 0 < front.length + back.length := by
    rw [← List.length_append]
    exact List.length_pos_iff.mpr hne
  have hlength := congrArg (fun s => s.toList.length) heq
  simp only [String.toList_intercalate, Text.length_intercalate, List.map_append, List.map_cons,
    List.length_append, List.length_cons, List.length_map, List.sum_append, List.sum_cons] at hlength
  have hblank : " ".toList.length = 1 := rfl
  rw [hblank, Nat.one_mul, Nat.one_mul] at hlength
  omega

/-- The command line is the one that stands there exactly if the moved word makes no difference to
it. -/
theorem join_taken_eq_iff (hne : front ++ back ≠ []) :
    (∃ words, words ≠ [] ∧ taken front back = (true, words) ∧
        " ".intercalate words = " ".intercalate (front ++ back)) ↔
      ∀ w ∈ back.head?, isSwitchWord w = false ∧
        " ".intercalate (w :: (front ++ back.tail)) = " ".intercalate (front ++ back) := by
  cases back with
  | nil =>
    rw [List.append_nil] at hne ⊢
    exact iff_of_true ⟨front, hne, rfl, rfl⟩ nofun
  | cons w back =>
    rw [taken]
    by_cases hswitch : isSwitchWord w = true
    · refine iff_of_false ?_ (by simp [hswitch])
      rintro ⟨words, hwords, htaken, hjoin⟩
      rw [if_pos hswitch] at htaken
      obtain rfl := (Prod.mk.inj htaken).2
      exact intercalate_append_ne w hwords hjoin
    · simp [hswitch]

/-- What a stage does shows its command line, and one output shows how it is read. -/
theorem stream_injective {limit : Option Binary64} {index : Nat} {ctx : Context}
    {command command' : String} {asJson asJson' : Bool}
    (h : stream limit index ctx command asJson .done =
      stream limit index ctx command' asJson' .done) :
    command = command' ∧ asJson = asJson' := by
  have hstream (command : String) (asJson : Bool) : stream limit index ctx command asJson .done =
      .perform index (.spawn command (environment ctx)) fun result =>
        .ofProgram (.ofExcept (items limit command asJson result)) := rfl
  rw [hstream, hstream] at h
  injection h with _ heffect hnext
  obtain ⟨rfl, -⟩ := Effect.spawn.inj heffect
  refine ⟨rfl, ?_⟩
  have hempty := congrFun hnext (ProcessResult.finished (Utf8.encode ['[', ']']) [] 0)
  cases asJson <;> cases asJson'
  · rfl
  · exact nomatch hempty
  · exact nomatch hempty
  · rfl

end Exec

namespace Invocation

/-- A stage that runs a command line, whatever it gets from the stages before it, and takes what comes
out for JSON or for lines. -/
def Runs (stage : Invocation) (command : String) (asJson : Bool) : Prop :=
  stage.name = "exec" ∧ ∀ limit index ctx source,
    (Command.exec limit).run index ctx stage.args source =
      .ok (.plain (Exec.stream limit index ctx command asJson source))

theorem runs_iff {stage : Invocation} (hname : stage.name = "exec") {command : String}
    {asJson : Bool} : stage.Runs command asJson ↔
      ∃ words, words ≠ [] ∧ Exec.commandWords stage.args = (asJson, words) ∧
        " ".intercalate words = command := by
  constructor
  · rintro ⟨-, hruns⟩
    have hrun := hruns none 0 ⟨.tool, [], false⟩ .done
    cases hcommand : Exec.commandWords stage.args with
    | mk asJson' words =>
      simp only [Command.exec, hcommand] at hrun
      split at hrun
      · cases hrun
      · rename_i hempty
        obtain ⟨hjoin, rfl⟩ :=
          Exec.stream_injective (congrArg StageOutput.stream (Except.ok.inj hrun))
        exact ⟨words, by simpa using hempty, rfl, hjoin⟩
  · rintro ⟨words, hne, hcommand, rfl⟩
    refine ⟨hname, fun limit index ctx source => ?_⟩
    simp only [Command.exec, hcommand, List.isEmpty_eq_false_iff.mpr hne, Bool.false_eq_true,
      ↓reduceIte]

/-- A stage runs one command line. -/
theorem Runs.command_unique {stage : Invocation} {command command' : String}
    {asJson asJson' : Bool} (h : stage.Runs command asJson) (h' : stage.Runs command' asJson') :
    command = command' := by
  obtain ⟨words, -, hwords, rfl⟩ := (runs_iff h.1).mp h
  obtain ⟨words', -, hwords', rfl⟩ := (runs_iff h'.1).mp h'
  obtain ⟨-, rfl⟩ := Prod.mk.inj (hwords.symm.trans hwords')
  rfl

end Invocation

namespace Pipeline

/-- The words of one stage say this stage. -/
theorem parse_words {text : String} {ws : List Word}
    (h : Lexeme.ofText text.toList = .ok (ws.map .word)) (hne : ws ≠ []) {stage : Invocation}
    (hstage : stage.SpelledBy ws) : parse text = .ok [stage] := by
  rw [parse, h]
  change ofLexemes (ws.map .word) = _
  rw [ofLexemes, List.isEmpty_map, List.isEmpty_eq_false_iff.mpr hne, Lexeme.segments_words]
  exact (ofSegments_ok_iff _ 0).mpr (.cons hstage .nil)

/-- The words of a command, each in quotes, with the switch somewhere between them. Without it they are
run as one command line in their order. With it the same command line is run and its output read as
JSON exactly if no word stands behind the switch, or the one that does is no word for on or off and
makes no difference in front of all the others. The words are taken as they stand exactly if the words
in front of the switch are all the same as that one. -/
theorem switch_keeps_command_iff {front back : List String} (hne : front ++ back ≠ [])
    {text plain : String}
    (htext : Lexeme.ofText text.toList = .ok ((Exec.typedWithSwitch front back).map .word))
    (hplain : Lexeme.ofText plain.toList = .ok ((Exec.typed (front ++ back)).map .word)) :
    ∃ stage bare, parse text = .ok [stage] ∧ parse plain = .ok [bare] ∧
      bare.Runs (" ".intercalate (front ++ back)) false ∧
      (stage.Runs (" ".intercalate (front ++ back)) true ↔
        ∀ w ∈ back.head?, Exec.isSwitchWord w = false ∧
          " ".intercalate (w :: (front ++ back.tail)) = " ".intercalate (front ++ back)) ∧
      (Exec.commandWords stage.args = (true, front ++ back) ↔
        ∀ w ∈ back.head?, Exec.isSwitchWord w = false ∧ ∀ v ∈ front, v = w) ∧
      Exec.commandWords stage.args = Exec.taken front back := by
  have hexec : ¬ Word.Flag ⟨"exec", false⟩ := mt Word.isFlag_iff.mpr (by decide)
  have hstage : Invocation.SpelledBy ⟨"exec", .ofArguments (front.map .bare ++ Argument.switch back)⟩
      (Exec.typedWithSwitch front back) :=
    ⟨_, _, _, rfl, hexec, by decide,
      Argument.reads_quoted_append front (Argument.reads_switch back), rfl⟩
  have hbare : Invocation.SpelledBy ⟨"exec", .ofArguments ((front ++ back).map .bare)⟩
      (Exec.typed (front ++ back)) :=
    ⟨_, _, _, rfl, hexec, by decide, Argument.reads_quoted _, rfl⟩
  obtain ⟨hname, htaken⟩ := Exec.commandWords_typedWithSwitch hstage
  obtain ⟨hbareName, hwords⟩ := Exec.commandWords_typed hbare
  refine ⟨_, _, parse_words htext (List.cons_ne_nil _ _) hstage,
    parse_words hplain (List.cons_ne_nil _ _) hbare, ?_, ?_, ?_, htaken⟩
  · exact (Invocation.runs_iff hbareName).mpr ⟨_, hne, hwords, rfl⟩
  · rw [Invocation.runs_iff hname, htaken]
    exact Exec.join_taken_eq_iff hne
  · rw [htaken]
    exact Exec.taken_eq_iff

/-- The switch in front of all words, of which the first is no word for on or off. -/
theorem switch_in_front_keeps_command :
    let words := ["echo", "[1, 2]", "--json", "yes"]
    let typed := "exec --json 'echo' '[1, 2]' \"--json\" \\yes"
    Lexeme.ofText typed.toList = .ok ((Exec.typedWithSwitch [] words).map .word) ∧
      ∃ stage, parse typed = .ok [stage] ∧ stage.Runs "echo [1, 2] --json yes" true := by
  intro words typed
  have htext : Lexeme.ofText typed.toList = .ok ((Exec.typedWithSwitch [] words).map .word) := by
    decide +kernel
  have hplain : Lexeme.ofText "exec 'echo' '[1, 2]' '--json' 'yes'".toList =
      .ok ((Exec.typed ([] ++ words)).map .word) := by decide +kernel
  obtain ⟨stage, -, hparse, -, -, hruns, -⟩ :=
    switch_keeps_command_iff (by simp [words]) htext hplain
  have hjoin : " ".intercalate words = "echo [1, 2] --json yes" := by decide +kernel
  refine ⟨htext, stage, hparse, hjoin ▸ hruns.mpr ?_⟩
  rintro w ⟨⟩
  exact ⟨by decide, rfl⟩

/-- The word behind a switch in the middle is put in front of the command, and one that is a word for
off is dropped and switches the reading of JSON off. -/
theorem switch_moves_and_drops_words :
    let moved := "exec 'echo' --json '[1]'"
    let dropped := "exec --json 'no' 'date'"
    Lexeme.ofText moved.toList = .ok ((Exec.typedWithSwitch ["echo"] ["[1]"]).map .word) ∧
      Lexeme.ofText dropped.toList = .ok ((Exec.typedWithSwitch [] ["no", "date"]).map .word) ∧
      ∃ stage stage', parse moved = .ok [stage] ∧ stage.Runs "[1] echo" true ∧
        ¬ stage.Runs "echo [1]" true ∧ parse dropped = .ok [stage'] ∧ stage'.Runs "date" false ∧
        ¬ stage'.Runs "no date" true := by
  intro moved dropped
  have hmoved : Invocation.Runs ⟨"exec", [("_", .many ["echo"]), ("json", .single "[1]")]⟩
      "[1] echo" true :=
    (Invocation.runs_iff rfl).mpr ⟨["[1]", "echo"], by simp, by decide +kernel, by decide +kernel⟩
  have hdropped : Invocation.Runs ⟨"exec", [("_", .many ["date"]), ("json", .single "no")]⟩
      "date" false :=
    (Invocation.runs_iff rfl).mpr ⟨["date"], by simp, by decide +kernel, by decide +kernel⟩
  exact ⟨by decide +kernel, by decide +kernel, _, _, by decide +kernel, hmoved,
    fun h => absurd (hmoved.command_unique h) (by decide), by decide +kernel, hdropped,
    fun h => absurd (hdropped.command_unique h) (by decide)⟩

end Pipeline

end Sluice
