import Sluice.Json.Depth
import Sluice.Json.Spoken
import Sluice.Decimal.Notation

/-!
Why a run, a resumption or a token fails. Each cause is a constructor and the words for all of them
are in one place for each kind.
-/

namespace Sluice

/-- Why a command refuses its arguments, its input or what the outside world answered. -/
inductive CommandError where
  | notInteger (flag raw : String)
  | noCommandLine
  | timedOut (limit : Option Binary64) (command : String)
  | exited (code : Int) (detail : String)
  | outputNotJson (fault : Json.Fault) (line : Nat)
  | itemNotJson (fault : Json.Fault) (text : String)
  | countNotInteger (raw : String)
  | countNegative
  | noFields
  | noConditions
  | noOperator (raw : String)
  | noFieldName (raw : String)
  | notInteractive
  | notApproved
  | noUrl
  | noTool
  | argumentsNotJson
  | unreachable (detail : String)
  | errorStatus (status : Nat) (body : String)
  | replyNotJson
  | refused (words : String)
  deriving DecidableEq

/-- The name of the setting that holds the base address of `invoke`. -/
def urlVariable : String := "TIDEPIPE_INVOKE_URL"

/-- The name of the setting that holds the credentials of `invoke`. -/
def tokenVariable : String := "TIDEPIPE_INVOKE_TOKEN"

/-- A time limit in seconds, as shown in a message. -/
def spokenLimit : Option Binary64 → String
  | some x => String.ofList (Decimal.spoken.write x)
  | none => "None"

def CommandError.message : CommandError → String
  | .notInteger flag raw => s!"--{flag} must be an integer, got {quote raw}"
  | .noCommandLine => "exec requires a command to run"
  | .timedOut limit command => s!"exec timed out after {spokenLimit limit}s: {command}"
  | .exited code detail => s!"exec failed (exit {code}): {detail}"
  | .outputNotJson fault line =>
    s!"exec --json: output is not valid JSON ({fault.message} at line {line})"
  | .itemNotJson fault text => s!"json: item is not valid JSON ({fault.message}): {quote text}"
  | .countNotInteger raw => s!"head: count must be an integer, got {quote raw}"
  | .countNegative => "head: count must not be negative"
  | .noFields => "pick requires a comma-separated field list"
  | .noConditions => "where requires at least one key=value condition"
  | .noOperator raw => s!"where: invalid condition {quote raw} (expected key=value)"
  | .noFieldName raw => s!"where: condition {quote raw} has no field name"
  | .notInteractive =>
    "approve needs an interactive terminal in human mode (use --mode tool to get a resume token)"
  | .notApproved => "Not approved"
  | .noUrl => s!"invoke requires --url or {urlVariable}"
  | .noTool => "invoke requires --tool and --action"
  | .argumentsNotJson => "invoke --args-json must be valid JSON"
  | .unreachable detail => s!"invoke request failed: {detail}"
  | .errorStatus status body => s!"invoke failed ({status}): {body}"
  | .replyNotJson => "invoke expected a JSON response"
  | .refused words => words

/-- Why a resume token is refused. -/
inductive TokenError where
  | missing
  | malformed
  | tampered
  | undecodable
  | notAnObject
  | version (found : Json)
  | invalid (errors : Nat)
  deriving DecidableEq

def TokenError.message : TokenError → String
  | .missing => "Missing resume token"
  | .malformed => "Malformed resume token"
  | .tampered => "Resume token failed integrity check"
  | .undecodable => "Resume token payload is not decodable"
  | .notAnObject => "Resume token payload must be an object"
  | .version found => s!"Unsupported resume token version: {String.ofList found.spoken}"
  | .invalid errors => s!"Invalid resume token payload: {errors} validation error(s)"

/-- Why there is no continuation. -/
inductive ContinuationError where
  | notHalted
  | invalid (errors : Nat)
  | pastEnd (index stages : Nat)
  deriving DecidableEq

/-- How many faults a continuation has. -/
def ContinuationError.count : ContinuationError → Nat
  | .notHalted => 0
  | .invalid errors => errors
  | .pastEnd _ _ => 1

def ContinuationError.message : ContinuationError → String
  | .notHalted => "Run did not halt on an approval request"
  | .invalid errors => s!"{errors} validation error(s)"
  | .pastEnd index stages =>
    s!"1 validation error(s); Value error, resumeAtIndex {index} is past the end of a {stages}-stage pipeline"

/-- Why an address cannot be used. -/
inductive UrlError where
  | tooLong
  | unprintable (c : Char) (position : Nat)
  | badPort (text : String)
  | badAddress4 (host : String)
  | badAddress6 (host : String)
  | badHostname (host : String)
  | doubleSlash
  | leadingColon
  deriving DecidableEq

def UrlError.message : UrlError → String
  | .tooLong => "URL too long"
  | .unprintable c position =>
    s!"Invalid non-printable ASCII character in URL, {quote c.toString} at position {position}."
  | .badPort text => s!"Invalid port: {quote text}"
  | .badAddress4 host => s!"Invalid IPv4 address: {quote host}"
  | .badAddress6 host => s!"Invalid IPv6 address: {quote host}"
  | .badHostname host => s!"Invalid IDNA hostname: {quote host}"
  | .doubleSlash => "Relative URLs cannot have a path starting with '//'"
  | .leadingColon => "Relative URLs cannot have a path starting with ':'"

/-- Why something fails. -/
inductive Failure where
  | command (e : CommandError)
  | unknownCommand (name : String)
  | duplicateCommand (name : String)
  | token (e : TokenError)
  | continuation (e : ContinuationError)
  | url (e : UrlError)
  /-- A whole number in a text with more digits than are read. -/
  | longNumber (digits : Nat)
  /-- A text in which more arrays and objects stand inside one another than there is room for. -/
  | textTooDeep (innermost : Json.Container)
  /-- A value with more levels than the serialiser goes down. -/
  | tooManyLevels
  /-- A whole number with more digits than are written. -/
  | longInText
  /-- Halves of characters where a text has to be encoded. -/
  | notEncodable (half : Text.Half)
  /-- Halves of characters in a string of an envelope. -/
  | envelopeNotText (half : Text.Half)
  /-- An undefined or infinite number where JSON proper is sent. -/
  | numberOutOfRange
  /-- A request to approve where only JSON values can be shown. -/
  | requestNotJson
  /-- A header text with characters that headers cannot hold: the first run of them. -/
  | headerNotAscii (first : Char) (start stop : Nat)
  /-- Any other failure of a command, with the name of its kind. -/
  | fault (kind words : String)
  deriving DecidableEq

/-- The words for characters that a codec has no bytes for. -/
def codecMessage (codec reason : String) (first : List Char) (start stop : Nat) : String :=
  if start = stop then
    let shown := String.ofList first
    s!"'{codec}' codec can't encode character '{shown}' in position {start}: {reason}"
  else s!"'{codec}' codec can't encode characters in position {start}-{stop}: {reason}"

/-- The words for halves of characters in a text. -/
def halfMessage (half : Text.Half) : String :=
  codecMessage "utf-8" "surrogates not allowed" (Text.escapedHalf half.code) half.start half.stop

def Failure.message : Failure → String
  | .command e => e.message
  | .unknownCommand name => s!"Unknown command: {name}"
  | .duplicateCommand name => s!"Command '{name}' is registered more than once"
  | .token e => e.message
  | .continuation e => e.message
  | .url e => e.message
  | .longNumber digits =>
    s!"Exceeds the limit (4300 digits) for integer string conversion: value has {digits} digits; use sys.set_int_max_str_digits() to increase the limit"
  | .numberOutOfRange => "Out of range float values are not JSON compliant"
  | .requestNotJson => "Object of type ApprovalRequest is not JSON serializable"
  | .textTooDeep innermost =>
    s!"maximum recursion depth exceeded while decoding a JSON {innermost.name} from a unicode string"
  | .tooManyLevels => "Circular reference detected (depth exceeded)"
  | .longInText =>
    "Exceeds the limit (4300 digits) for integer string conversion; use sys.set_int_max_str_digits() to increase the limit"
  | .notEncodable half => halfMessage half
  | .envelopeNotText half =>
    "Error serializing to JSON: UnicodeEncodeError: " ++ halfMessage half
  | .headerNotAscii first start stop =>
    codecMessage "ascii" "ordinal not in range(128)" (Text.escapedCode first) start stop
  | .fault _ words => words

/-- The words for a failure in a report, which names the kind of one that has no words. -/
def Failure.report : Failure → String
  | .command e => if e.message.isEmpty then "CommandError" else e.message
  | .fault kind words => if words.isEmpty then kind else words
  | f => f.message

/-- A refused JSON text as a failure of its reader's own choice, a long number always as itself. -/
def Json.ReadError.toFailure (malformed : Json.Fault → Nat → Failure) : Json.ReadError → Failure
  | .malformed fault line => malformed fault line
  | .longNumber digits => .longNumber digits

end Sluice
