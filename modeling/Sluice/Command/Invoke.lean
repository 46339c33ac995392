import Sluice.Command.Basic
import Sluice.Json.Finite
import Sluice.Json.Writer
import Sluice.Serialisation
import Sluice.Url

/-!
`invoke` calls a tool endpoint over HTTP. Its source is pulled to the end and dropped, then one
request is sent, and the JSON of the answer becomes items.
-/

namespace Sluice

namespace Invoke

structure Call where
  url : String
  tool : String
  action : String
  arguments : Json
  token : String

/-- How much of the answer to a failed request is shown. -/
def previewLength : Nat := 400

/-- A flag, else a variable of the environment, without the blanks around it. -/
def setting (ctx : Context) (args : Args) (flag variableName : String) : String :=
  trimmed (((args.filled? flag).orElse fun _ => ctx.filled? variableName).getD "")

def toolArguments (args : Args) : Except Failure Json :=
  match args.flag? "args-json" with
  | none => .ok (.obj [])
  | some raw =>
    match Json.read raw.toList with
    | .ok j => .ok j
    | .error e => .error (e.toFailure fun _ _ => .command .argumentsNotJson)

def call (ctx : Context) (args : Args) : Except Failure Call := do
  let url := setting ctx args "url" urlVariable
  if url.isEmpty then refuse .noUrl
  else
    match args.filled? "tool", args.filled? "action" with
    | some tool, some action =>
      let arguments ← toolArguments args
      pure ⟨url, tool, action, arguments, setting ctx args "token" tokenVariable⟩
    | _, _ => refuse .noTool

/-- A header text, unless it holds a character that headers cannot. -/
def headerText (s : String) : Except Failure String :=
  let cs := s.toList
  match cs.findIdx? fun c => 0x7f < c.toNat with
  | none => .ok s
  | some i =>
    let run := (cs.drop i).takeWhile fun c => 0x7f < c.toNat
    .error (.headerNotAscii (cs.getD i ' ') i (i + run.length - 1))

/-- The request for a call. Credentials in the address take the place of the token. -/
def post (lib : Url.Library) (c : Call) : Except Failure Post := do
  let base ← (lib.read c.url).mapError Failure.url
  let endpoint ← (lib.join base Url.endpointPath).mapError Failure.url
  let bearer ← if c.token.isEmpty then pure none else some <$> headerText s!"Bearer {c.token}"
  let body := Json.obj [("tool", .str c.tool), ("action", .str c.action), ("args", c.arguments)]
  if body.allFinite then
    let authorization := (lib.authorization? endpoint).orElse fun _ => bearer
    let text ← Json.encodable body (Json.text Json.compact body)
    pure ⟨lib.text endpoint, authorization, text⟩
  else throw .numberOutOfRange

/-- The items of the body of an answer. A body of blanks stands for null. -/
def bodyItems (body : List Char) : Except Failure (List Item) :=
  if Text.isBlankText body then .ok [.value .null]
  else
    match Json.read body with
    | .ok j => .ok j.items
    | .error e => .error (e.toFailure fun _ _ => .command .replyNotJson)

/-- The items of an answer, or why the request failed. -/
def items : Reply → Except Failure (List Item)
  | .unreachable detail => refuse (.unreachable detail)
  | .response status body =>
    let text := Utf8.decodeLossy body
    if 400 ≤ status ∧ status ≤ 599 then
      refuse (.errorStatus status (String.ofList (text.take previewLength)))
    else bodyItems text

def stream (lib : Url.Library) (stage : Nat) (c : Call) (source : Stream) : Stream :=
  .ofProgram do
    let _ ← source.collect
    let request ← Program.ofExcept (post lib c)
    let reply ← Program.effect stage (.post request)
    Program.ofExcept (items reply)

end Invoke

/-- The command `invoke`, with a library of addresses. -/
def Command.invoke (lib : Url.Library) : Command where
  name := "invoke"
  help := textOfLines [
    "invoke -- call a tool endpoint",
    "",
    "Usage:",
    "  invoke --tool message --action send --args-json '\x7b\"to\":\"...\",\"message\":\"...\"\x7d'",
    "",
    "Config:",
    s!"  - Uses {urlVariable} by default (or pass --url).",
    s!"  - Optional bearer token via {tokenVariable} (or pass --token).",
    "",
    "A JSON array response becomes one item per element."]
  run stage ctx args source := do
    let c ← Invoke.call ctx args
    pure (.plain (Invoke.stream lib stage c source))

end Sluice
