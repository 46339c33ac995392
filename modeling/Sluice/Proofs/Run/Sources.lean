import Sluice.Proofs.Json.Extent
import Sluice.Proofs.Run.Intake

/-!
The three ways in which JSON text gets into a run: the output of a subprocess, the body of an answer
and a text among the items. The first has the blanks around it taken away before it is read, the
second is looked at for something that is no blank, and the third is read as it is. On a text that is
read at all they agree.
-/

namespace Sluice

namespace Invocation

/-- An `exec` with these words for its command. Its output is announced as JSON. -/
def SpawnsJson (words : List String) (stage : Invocation) : Prop :=
  stage.name = "exec" ∧ Exec.commandWords stage.args = (true, words)

/-- An `invoke` that sends a request: it has an address and a call, and these fit into one. -/
def Posts (ctx : Context) (stage : Invocation) : Prop :=
  stage.name = "invoke" ∧
    ∃ c request, Invoke.call ctx stage.args = .ok c ∧ Invoke.post .standard c = .ok request

/-- Whether a request is sent can be computed. -/
theorem posts_of_isOk {ctx : Context} {stage : Invocation} (hname : stage.name = "invoke")
    (h : ((Invoke.call ctx stage.args).bind (Invoke.post .standard)).isOk = true) : stage.Posts ctx := by
  cases hcall : Invoke.call ctx stage.args with
  | error f =>
    rw [hcall] at h
    cases h
  | ok c =>
    rw [hcall] at h
    cases hpost : Invoke.post .standard c with
    | error f =>
      simp only [Except.bind, hpost] at h
      cases h
    | ok request => exact ⟨hname, c, request, hcall, hpost⟩

end Invocation

variable {text : List Char} {j : Json}

theorem Exec.jsonItems_of_read (hread : Json.read text = .ok j) : jsonItems text = .ok j.items := by
  obtain ⟨htrimmed, hne⟩ := Json.read_trim hread
  simp only [jsonItems, List.isEmpty_eq_false_iff.mpr hne, htrimmed, Bool.false_eq_true,
    ↓reduceIte]

theorem Invoke.bodyItems_of_read (hread : Json.read text = .ok j) :
    bodyItems text = .ok j.items := by
  simp only [bodyItems, Json.not_blank_of_read hread, hread, Bool.false_eq_true, ↓reduceIte]

theorem Decode.items_of_text (hread : Json.read text = .ok j) :
    items (.value (.str (String.ofList text))) = .ok j.items := by
  simp only [items, String.toList_ofList, hread]

/-- The items of the source are dropped, and those of the answer are yielded. -/
theorem Invoke.stream_ofList {c : Call} {request : Post} (hpost : post .standard c = .ok request) (stage : Nat)
    (source : List Item) :
    stream .standard stage c (.ofList source) =
      .perform stage (.post request) fun reply => .ofProgram (.ofExcept (items reply)) := by
  rw [stream, Stream.collect_ofList]
  change Stream.ofProgram ((Program.ofExcept (post .standard c)).bind _) = _
  rw [hpost]
  rfl

namespace Pipeline

variable {limit : Option Binary64} {registry : Registry} {ctx : Context} {script : Script}

/-- A stage that yields these items when it is run alone on a source, and ends the run with them. -/
def Supplies (registry : Registry) (ctx : Context) (script : Script) (stage : Invocation)
    (source items : List Item) : Prop :=
  ((yields registry ctx [stage] (.ofList source)).run script).result = .ok items ∧
    ((run registry ctx [stage] (.ofList source)).run script).result = .ok (.reached 1 items false)

theorem supplies_of_collect {stage : Invocation} {command : Command}
    (hfind : registry.find? stage.name = some command) {source items : List Item} {stream : Stream}
    (hopens : command.run 0 ctx stage.args (.ofList source) = .ok (.plain stream))
    (hitems : (stream.collect.run script).result = .ok items) :
    Supplies registry ctx script stage source items := by
  constructor
  · simp only [yields, opened, hfind, hopens, StageOutput.plain, Program.bind_perform, Program.run,
      Script.answer]
    exact hitems
  · have hrun : run registry ctx [stage] (.ofList source) =
        announcing 0 (finish 1 stream false) [stage] := by
      simp only [run, runFrom, hfind, hopens, StageOutput.plain, Bool.false_eq_true, ↓reduceIte]
      rfl
    rw [hrun, run_announcing, finish_reached, Program.run_map, hitems]
    rfl

theorem supplies_exec (hbuiltin : builtinCommands limit ⊆ registry.commands)
    {exec : Invocation} {words : List String} (hexec : exec.SpawnsJson words) (hne : words ≠ [])
    {stdout stderr : List UInt8} {more : List ProcessResult}
    (hprocess : script.processes = .finished stdout stderr 0 :: more)
    (hread : Json.read (Utf8.decodeLossy stdout) = .ok j) (source : List Item) :
    Supplies registry ctx script exec source j.items := by
  obtain ⟨hname, hwords⟩ := hexec
  have hfind : registry.find? exec.name = some (.exec limit) :=
    hname ▸ Registry.find?_of_mem (c := .exec limit) (hbuiltin (by simp [builtinCommands]))
  have hopens : (Command.exec limit).run 0 ctx exec.args (.ofList source) =
      .ok (.plain (Exec.stream limit 0 ctx (" ".intercalate words) true (.ofList source))) := by
    simp only [Command.exec, hwords, List.isEmpty_eq_false_iff.mpr hne, Bool.false_eq_true,
      ↓reduceIte]
  refine supplies_of_collect hfind hopens ?_
  rw [Exec.stream_ofList]
  simp only [Stream.collect, Stream.collect_ofProgram, Program.run, Script.answer, hprocess,
    Exec.items, Exec.jsonItems_of_read hread]
  rfl

theorem supplies_invoke (hbuiltin : builtinCommands limit ⊆ registry.commands)
    {invoke : Invocation} (hinvoke : invoke.Posts ctx) {body : List UInt8} {status : Nat}
    {more : List Reply} (hreply : script.replies = .response status body :: more)
    (hstatus : ¬ (400 ≤ status ∧ status ≤ 599))
    (hread : Json.read (Utf8.decodeLossy body) = .ok j) (source : List Item) :
    Supplies registry ctx script invoke source j.items := by
  obtain ⟨hname, c, request, hcall, hpost⟩ := hinvoke
  have hfind : registry.find? invoke.name = some (.invoke .standard) :=
    hname ▸ Registry.find?_of_mem (c := .invoke .standard) (hbuiltin (by simp [builtinCommands]))
  have hopens : (Command.invoke .standard).run 0 ctx invoke.args (.ofList source) =
      .ok (.plain (Invoke.stream .standard 0 c (.ofList source))) := by
    simp only [Command.invoke, hcall]
    rfl
  refine supplies_of_collect hfind hopens ?_
  rw [Invoke.stream_ofList hpost]
  simp only [Stream.collect, Stream.collect_ofProgram, Program.run, Script.answer, hreply,
    Invoke.items, if_neg hstatus, Invoke.bodyItems_of_read hread]
  rfl

theorem supplies_json (hbuiltin : builtinCommands limit ⊆ registry.commands) {json : Invocation}
    (hjson : json.name = "json") (hread : Json.read text = .ok j) :
    Supplies registry ctx script json [.value (.str (String.ofList text))] j.items := by
  have hfind : registry.find? json.name = some .json :=
    hjson ▸ Registry.find?_of_mem (c := .json) (hbuiltin (by simp [builtinCommands]))
  refine supplies_of_collect hfind rfl ?_
  have hexpand : (Stream.ofList [.value (.str (String.ofList text))]).expand Decode.items =
      .prepend j.items .done := by
    change Stream.expand _ (.yield _ .done) = _
    rw [Stream.expand, Decode.items_of_text hread]
    rfl
  rw [hexpand]
  exact congrArg (fun p => (Program.run p script).result) (Stream.collect_ofList j.items)

/-- Take a text that is read as a value. An `exec` whose subprocess prints it and ends well, an
`invoke` that is answered with it, and a `json` that has it for its only item supply the same items:
the elements in order if the value is an array, else the value. -/
theorem sources_agree (hbuiltin : builtinCommands limit ⊆ registry.commands)
    (hread : Json.read text = .ok j) {exec invoke json : Invocation} {words : List String}
    (hexec : exec.SpawnsJson words) (hne : words ≠ []) (hinvoke : invoke.Posts ctx)
    (hjson : json.name = "json") {stdout stderr body : List UInt8} {status : Nat}
    {processes : List ProcessResult} {replies : List Reply}
    (hprocess : script.processes = .finished stdout stderr 0 :: processes)
    (hstdout : Utf8.decodeLossy stdout = text)
    (hreply : script.replies = .response status body :: replies)
    (hstatus : ¬ (400 ≤ status ∧ status ≤ 599)) (hbody : Utf8.decodeLossy body = text)
    (source : List Item) :
    ∃ items : List Item,
      Supplies registry ctx script exec source items ∧
      Supplies registry ctx script invoke source items ∧
      Supplies registry ctx script json [.value (.str (String.ofList text))] items ∧
      (∀ xs, j = .arr xs → items = xs.map .value) ∧
      ((∀ xs, j ≠ .arr xs) → items = [.value j]) := by
  refine ⟨j.items, supplies_exec hbuiltin hexec hne hprocess (hstdout ▸ hread) source,
    supplies_invoke hbuiltin hinvoke hreply hstatus (hbody ▸ hread) source,
    supplies_json hbuiltin hjson hread, ?_, ?_⟩
  · rintro xs rfl
    rfl
  · intro harray
    cases j with
    | arr xs => exact absurd rfl (harray xs)
    | null | bool _ | int _ | float _ | str _ | obj _ => rfl

/-- An array with blanks around and inside it. -/
theorem spaced_array_supplied :
    let text := " \n[ 1,\t\"a\" ]\r\n".toList
    let script : Script :=
      ⟨[.finished (Utf8.encode text) [] 0], [.response 200 (Utf8.encode text)], []⟩
    let invoke : Invocation :=
      ⟨"invoke", [("url", .single "http://localhost"), ("tool", .single "t"), ("action", .single "a")]⟩
    let supplied := Supplies (Registry.builtin none) ⟨.tool, [], false⟩ script
    let items : List Item := [.value (.int 1), .value (.str "a")]
    supplied ⟨"exec", [("json", .single "cat notes")]⟩ [] items ∧ supplied invoke [] items ∧
      supplied ⟨"json", []⟩ [.value (.str (String.ofList text))] items := by
  intro text script invoke supplied items
  have hbuiltin : builtinCommands none ⊆ (Registry.builtin none).commands := fun c hc => hc
  have hread : Json.read text = .ok (.arr [.int 1, .str "a"]) := by decide +kernel
  have hexec : (⟨"exec", [("json", .single "cat notes")]⟩ : Invocation).SpawnsJson ["cat notes"] :=
    ⟨rfl, rfl⟩
  have hinvoke : invoke.Posts ⟨.tool, [], false⟩ :=
    Invocation.posts_of_isOk rfl (by decide +kernel)
  have hjson : (⟨"json", []⟩ : Invocation).name = "json" := rfl
  have hprocess : script.processes = [.finished (Utf8.encode text) [] 0] := rfl
  have hreply : script.replies = [.response 200 (Utf8.encode text)] := rfl
  obtain ⟨found, hfromExec, hfromInvoke, hfromJson, harray, -⟩ := sources_agree hbuiltin hread
    hexec (List.cons_ne_nil _ _) hinvoke hjson hprocess (Utf8.decodeLossy_encode text) hreply
    (by decide) (Utf8.decodeLossy_encode text) []
  obtain rfl : found = items := harray _ rfl
  exact ⟨hfromExec, hfromInvoke, hfromJson⟩

end Pipeline

end Sluice
