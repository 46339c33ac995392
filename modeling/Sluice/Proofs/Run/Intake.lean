import Sluice.Proofs.Json.Characters
import Sluice.Proofs.Json.Lengthening
import Sluice.Proofs.Run.Selection
import Sluice.Proofs.Text.Encodings

/-!
Values that a subprocess prints, one on each line, and that `json` reads back. A line feed in a string
is escaped, and so are the other line breaks of ASCII; but the line breaks beyond it stand in the
text as they are, and there the line of a value is broken in two. The first part of it is text that
ends inside of a string, so the run fails.
-/

namespace Sluice

/-- An `exec` with these words for its command. Its output is not announced as JSON. -/
def Invocation.Spawns (words : List String) (stage : Invocation) : Prop :=
  stage.name = "exec" ∧ Exec.commandWords stage.args = (false, words)

namespace Exec

/-- Lines that are not blank become items as they were printed. -/
theorem lineItems_joinLines {texts : List (List Char)}
    (h : ∀ text ∈ texts, Text.Unbroken text ∧ Text.isBlankText text = false) :
    lineItems (Text.joinLines texts) = texts.map fun text => .value (.str (String.ofList text)) := by
  have hlines : Text.lines (Text.joinLines texts) = texts := by
    refine Text.lines_joinLines fun text htext => ⟨(h text htext).1, ?_⟩
    rintro rfl
    cases (h [] htext).2
  have hkept : texts.filter (fun text => !Text.isBlankText text) = texts := by
    refine List.filter_eq_self.mpr fun text htext => ?_
    rw [(h text htext).2]
    rfl
  rw [lineItems, hlines, hkept]

theorem mem_lineItems {line output : List Char} (h : line ∈ Text.lines output)
    (hblank : Text.isBlankText line = false) :
    .value (.str (String.ofList line)) ∈ lineItems output := by
  refine List.mem_map.mpr ⟨line, List.mem_filter.mpr ⟨h, ?_⟩, rfl⟩
  rw [hblank]
  rfl

end Exec

namespace Decode

/-- A text item that is no array becomes what is read from it. -/
theorem items_of_read {text : List Char} {j : Json} (hread : Json.read text = .ok j)
    (harray : ∀ xs, j ≠ .arr xs) :
    items (.value (.str (String.ofList text))) = .ok [.value j] := by
  simp only [items, String.toList_ofList, hread]
  cases j with
  | arr xs => exact absurd rfl (harray xs)
  | null | bool _ | int _ | float _ | str _ | obj _ => rfl

theorem items_of_read_error {text : List Char} {e : Json.ReadError}
    (hread : Json.read text = .error e) :
    ∃ f, items (.value (.str (String.ofList text))) = .error f := by
  simp only [items, String.toList_ofList, hread]
  exact ⟨_, rfl⟩

end Decode

namespace Json

def writeLines (values : List Json) : List Char :=
  Text.joinLines (values.map (write spaced))

variable {values : List Json}

/-- Without line breaks beyond ASCII in them, the values come back one by one. -/
theorem decode_writeLines (hwell : ∀ j ∈ values, j.wellFormed = true)
    (hfinite : ∀ j ∈ values, j.allFinite = true) (harray : ∀ j ∈ values, ∀ xs, j ≠ .arr xs)
    (hchars : ∀ j ∈ values, ∀ c ∈ j.chars, c ∉ Text.separators) :
    List.Forall₂ (fun x y => Decode.items x = .ok [y]) (Exec.lineItems (writeLines values))
      (values.map .value) := by
  have hlines : ∀ text ∈ values.map (write spaced),
      Text.Unbroken text ∧ Text.isBlankText text = false := by
    intro text htext
    obtain ⟨j, hj, rfl⟩ := List.mem_map.mp htext
    have hopens := opens_writeAt (l := spaced) 0 j (hfinite j hj)
    exact ⟨(unbroken_writeAt_iff spaced_oneLine 0 (hfinite j hj)).mpr (hchars j hj),
      hopens.not_blank⟩
  rw [writeLines, Exec.lineItems_joinLines hlines, List.map_map, List.forall₂_map_left_iff,
    List.forall₂_map_right_iff, List.forall₂_same]
  exact fun j hj =>
    Decode.items_of_read (read_write spaced_lawful (hwell j hj) (.inr (hfinite j hj))) (harray j hj)

/-- With such a line break one of the lines is a part of a value, and that is not read. -/
theorem decode_writeLines_error (hwell : ∀ j ∈ values, j.wellFormed = true)
    (hfinite : ∀ j ∈ values, j.allFinite = true)
    (hchars : ∃ j ∈ values, ∃ c ∈ j.chars, c ∈ Text.separators) :
    ∃ x ∈ Exec.lineItems (writeLines values), ∃ e, Decode.items x = .error e := by
  have hbroken : ∃ text ∈ values.map (write spaced), ¬ Text.Unbroken text := by
    obtain ⟨j, hj, c, hc, hseparator⟩ := hchars
    refine ⟨_, List.mem_map_of_mem hj, fun hunbroken => ?_⟩
    exact (unbroken_writeAt_iff spaced_oneLine 0 (hfinite j hj)).mp hunbroken c hc hseparator
  obtain ⟨front, c, back, hmem, hbreak, hline⟩ := Text.exists_broken_line hbroken
  obtain ⟨j, hj, htext⟩ := List.mem_map.mp hmem
  have hc := Text.not_printed_of_isLineBreak hbreak
  have hin : c ∈ writeAt spaced 0 j := by
    rw [← write, htext]
    simp
  obtain ⟨-, hlow⟩ := (mem_writeAt_iff spaced_oneLine hc 0 j (hfinite j hj)).mp hin
  obtain ⟨e, he⟩ := read_front spaced_lawful (hwell j hj) (.inr (hfinite j hj)) htext
    (Text.not_ascii_of_isLineBreak hbreak hlow)
  have hopens : Opens (front ++ c :: back) := htext ▸ opens_writeAt 0 j (hfinite j hj)
  exact ⟨_, Exec.mem_lineItems hline (hopens.front hc).not_blank, Decode.items_of_read_error he⟩

end Json

/-- The items of the source are dropped, and those of the output are yielded. -/
theorem Exec.stream_ofList (limit : Option Binary64) (stage : Nat) (ctx : Context)
    (command : String) (asJson : Bool) (source : List Item) :
    stream limit stage ctx command asJson (.ofList source) =
      .perform stage (.spawn command (environment ctx)) fun result =>
        .ofProgram (.ofExcept (items limit command asJson result)) := by
  rw [stream, Stream.collect_ofList]
  rfl

namespace Pipeline

variable {limit : Option Binary64} {registry : Registry}

/-- Stages behind an `exec` that turn items into items have the lines of its output for their
source. -/
theorem run_exec_expandsBy (hbuiltin : builtinCommands limit ⊆ registry.commands) (ctx : Context)
    {exec : Invocation} {words : List String} (hexec : exec.Spawns words) (hne : words ≠ [])
    {stages : Pipeline} {fs : List (Item → Except Failure (List Item))}
    (hstages : List.Forall₂ (Invocation.ExpandsBy registry) stages fs) (items : List Item)
    {script : Script} {stdout stderr : List UInt8} {more : List ProcessResult}
    (hscript : script.processes = .finished stdout stderr 0 :: more) :
    ((run registry ctx (exec :: stages) (.ofList items)).run script).result =
      ((((Stream.ofList (Exec.lineItems (Utf8.decodeLossy stdout))).through fs).collect.run
        { script with processes := more }).result).map fun xs =>
          .reached (1 + stages.length) xs false := by
  obtain ⟨hname, hwords⟩ := hexec
  have hfind : registry.find? exec.name = some (.exec limit) :=
    hname ▸ Registry.find?_of_mem (c := .exec limit) (hbuiltin (by simp [builtinCommands]))
  have hplain : (Command.exec limit).run 0 ctx exec.args (.ofList items) =
      .ok (.plain (Exec.stream limit 0 ctx (" ".intercalate words) false (.ofList items))) := by
    simp only [Command.exec, hwords, List.isEmpty_eq_false_iff.mpr hne, Bool.false_eq_true,
      ↓reduceIte]
  have hback (source : Stream) : runFrom registry ctx 1 source false stages =
      announcing 1 (finish (1 + stages.length) (source.through fs) false) stages := by
    simpa only [List.append_nil, runFrom] using runFrom_expandsBy hstages []
  have hrun : run registry ctx (exec :: stages) (.ofList items) =
      .perform 0 (.start exec) fun _ => announcing 1 (finish (1 + stages.length)
        ((Exec.stream limit 0 ctx (" ".intercalate words) false (.ofList items)).through fs) false)
        stages := by
    simp only [run, runFrom, hfind, hplain, StageOutput.plain, Bool.false_eq_true, ↓reduceIte,
      Nat.zero_add, hback]
  rw [hrun, finish_reached, Exec.stream_ofList, Stream.through_perform]
  simp only [Program.run, Script.answer, run_announcing, Stream.collect, Program.bind_perform,
    hscript, Program.run_map]
  rfl

/-- Let a subprocess print values that are no arrays, one on each line. An `exec` and a `json` come to
their end with the same values, if no string or key among them has a line break beyond ASCII: a next
line, a line separator or a paragraph separator. If one has, the run fails. -/
theorem printed_values_return_iff (hbuiltin : builtinCommands limit ⊆ registry.commands)
    (ctx : Context) {exec json : Invocation} {words : List String} (hexec : exec.Spawns words)
    (hne : words ≠ []) (hjson : json.name = "json") {values : List Json}
    (hwell : ∀ j ∈ values, j.wellFormed = true) (hfinite : ∀ j ∈ values, j.allFinite = true)
    (harray : ∀ j ∈ values, ∀ xs, j ≠ .arr xs) (items : List Item) (script : Script)
    (stderr : List UInt8) (more : List ProcessResult)
    (hscript : script.processes =
      .finished (Utf8.encode (Json.writeLines values)) stderr 0 :: more) :
    let ran := ((run registry ctx [exec, json] (.ofList items)).run script).result
    ((∀ j ∈ values, ∀ c ∈ j.chars, c ∉ Text.separators) ↔
        ran = .ok (.reached 2 (values.map .value) false)) ∧
      ((∃ j ∈ values, ∃ c ∈ j.chars, c ∈ Text.separators) ↔ ∃ f, ran = .error f) := by
  intro ran
  have hdecode : json.ExpandsBy registry Decode.items := Invocation.expandsBy_json hbuiltin hjson
  have hrun : ran = (((((Stream.ofList (Exec.lineItems (Json.writeLines values))).expand
      Decode.items).collect.run { script with processes := more }).result).map fun xs =>
        .reached 2 xs false) := by
    have h := run_exec_expandsBy hbuiltin ctx hexec hne (.cons hdecode .nil) items hscript
    rwa [Utf8.decodeLossy_encode] at h
  have hreturned (h : ∀ j ∈ values, ∀ c ∈ j.chars, c ∉ Text.separators) :
      ran = .ok (.reached 2 (values.map .value) false) := by
    rw [hrun, Stream.expand_one_by_one (Json.decode_writeLines hwell hfinite harray h),
      Stream.collect_ofList]
    rfl
  have hfailed (h : ∃ j ∈ values, ∃ c ∈ j.chars, c ∈ Text.separators) :
      ∃ f, ran = .error f := by
    obtain ⟨f, hf⟩ := Stream.collect_expand_error
      (Json.decode_writeLines_error hwell hfinite h) { script with processes := more }
    exact ⟨f, by rw [hrun, hf]; rfl⟩
  by_cases h : ∀ j ∈ values, ∀ c ∈ j.chars, c ∉ Text.separators
  · have hreached := hreturned h
    refine ⟨iff_of_true h hreached, iff_of_false ?_ ?_⟩
    · rintro ⟨j, hj, c, hc, hseparator⟩
      exact h j hj c hc hseparator
    · rintro ⟨f, hf⟩
      rw [hreached] at hf
      cases hf
  · have hbroken : ∃ j ∈ values, ∃ c ∈ j.chars, c ∈ Text.separators := by
      simpa only [not_forall, not_not, exists_prop] using h
    obtain ⟨f, hf⟩ := hfailed hbroken
    refine ⟨iff_of_false h ?_, iff_of_true hbroken ⟨f, hf⟩⟩
    rw [hf]
    nofun

/-- Other line breaks and characters beyond ASCII in a string do no harm, nor does an empty string. -/
theorem printed_values_return :
    let values : List Json :=
      [.obj [("text", .str "one\n\x0c two\u00e9"), ("n", .int 2)], .str "", .null]
    let output :=
      "\x7b\"text\": \"one\\n\\f two\u00e9\", \"n\": 2\x7d\n\"\"\nnull".toList
    let ran := ((run (Registry.builtin none) ⟨.tool, [], false⟩
      [⟨"exec", [("_", .many ["cat notes"])]⟩, ⟨"json", []⟩] (.ofList [])).run
        ⟨[.finished (Utf8.encode output) [] 0], [], []⟩).result
    ran = .ok (.completed (values.map .value) false) := by
  intro values output ran
  have hlines : Json.writeLines
      [.obj [("text", .str "one\n\x0c two\u00e9"), ("n", .int 2)], .str "", .null] =
      "\x7b\"text\": \"one\\n\\f two\u00e9\", \"n\": 2\x7d\n\"\"\nnull".toList := by
    decide +kernel
  have hscript : [ProcessResult.finished (Utf8.encode output) [] 0] =
      [.finished (Utf8.encode (Json.writeLines values)) [] 0] := by
    rw [hlines]
  have hbuiltin : builtinCommands none ⊆ (Registry.builtin none).commands := fun c hc => hc
  have hexec : (⟨"exec", [("_", .many ["cat notes"])]⟩ : Invocation).Spawns ["cat notes"] :=
    ⟨rfl, rfl⟩
  have hjson : (⟨"json", []⟩ : Invocation).name = "json" := rfl
  have hwell : ∀ j ∈ values, j.wellFormed = true := by decide
  have hfinite : ∀ j ∈ values, j.allFinite = true := by decide
  have harray : ∀ j ∈ values, ∀ xs, j ≠ .arr xs := by simp [values]
  obtain ⟨hreturned, -⟩ := printed_values_return_iff hbuiltin ⟨.tool, [], false⟩ hexec
    (List.cons_ne_nil _ _) hjson hwell hfinite harray []
    ⟨[.finished (Utf8.encode output) [] 0], [], []⟩ [] [] hscript
  have hchars : ∀ j ∈ values, (j.chars.all fun c => !Text.separators.contains c) = true := by
    decide
  exact hreturned.mp fun j hj => by simpa using hchars j hj

/-- A line separator stands in the text of a string as it is, and the line ends there. -/
theorem line_separator_breaks_value :
    let values : List Json := [.obj [("text", .str "one\u2028two")]]
    let output := "\x7b\"text\": \"one\u2028two\"\x7d".toList
    let ran := ((run (Registry.builtin none) ⟨.tool, [], false⟩
      [⟨"exec", [("_", .many ["cat notes"])]⟩, ⟨"json", []⟩] (.ofList [])).run
        ⟨[.finished (Utf8.encode output) [] 0], [], []⟩).result
    Json.writeLines values = output ∧
      ran = .error (.command (.itemNotJson .unterminatedString "\x7b\"text\": \"one")) := by
  intro values output ran
  have hlines : Exec.lineItems output =
      [.value (.str "\x7b\"text\": \"one"), .value (.str "two\"\x7d")] := rfl
  have hread : Json.read "\x7b\"text\": \"one".toList =
      .error (.malformed .unterminatedString 1) := by
    decide +kernel
  have hshown : String.ofList ("\x7b\"text\": \"one".toList.take Decode.previewLength) =
      "\x7b\"text\": \"one" := by
    decide +kernel
  have hexpand : (Stream.ofList (Exec.lineItems output)).expand Decode.items =
      .fail (.command (.itemNotJson .unterminatedString "\x7b\"text\": \"one")) := by
    rw [hlines]
    change Stream.expand _ (.yield _ _) = _
    simp only [Stream.expand, Decode.items, hread, Json.ReadError.toFailure, hshown]
  have hbuiltin : builtinCommands none ⊆ (Registry.builtin none).commands := fun c hc => hc
  have hexec : (⟨"exec", [("_", .many ["cat notes"])]⟩ : Invocation).Spawns ["cat notes"] :=
    ⟨rfl, rfl⟩
  have hdecode : Invocation.ExpandsBy (Registry.builtin none) ⟨"json", []⟩ Decode.items :=
    ⟨.json, rfl, fun _ _ _ => rfl⟩
  refine ⟨rfl, (run_exec_expandsBy hbuiltin _ hexec (List.cons_ne_nil _ _) (.cons hdecode .nil) []
    rfl).trans ?_⟩
  rw [Utf8.decodeLossy_encode, Stream.through_cons, Stream.through_nil, hexpand]
  rfl

end Pipeline

end Sluice
