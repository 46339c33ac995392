import Sluice.Decimal.Reader
import Sluice.Serialisation
import Sluice.Stream.Effect
import Sluice.Text.UpperCase
import Sluice.Text.Utf8

/-!
Settings of the program, read from the variables of its environment. The names of the variables are
taken in letters of either case. A file of settings beside the program, `.env`, would come after the
variables and is left out.
-/

namespace Sluice

structure Settings where
  tokenSecret : Option String
  execLimit : Option Binary64

namespace Settings

/-- A name in lower case, the kelvin sign included. -/
def foldName (name : String) : List Char :=
  name.toList.map fun c => if c = '\u212a' then 'k' else c.toLower

/-- The value of a setting: that of the last variable with its name. -/
def value? (env : Environment) (name : String) : Option String :=
  (env.reverse.find? fun kv => foldName kv.1 == foldName name).map Prod.snd

def levels : List String :=
  ["TRACE", "DEBUG", "INFO", "SUCCESS", "WARNING", "ERROR", "CRITICAL"]

def defaultLevel : String := "WARNING"

def unknownLevel (level : String) : Failure :=
  .fault "ValueError" s!"Level '{level}' does not exist"

def badLimit (text : String) : Failure :=
  .fault "ValidationError" s!"exec_timeout is not a number: {quote text}"

/-- The time limit for subprocesses, where one is set. -/
def execLimit? (env : Environment) : Except Failure (Option Binary64) :=
  match value? env "TIDEPIPE_EXEC_TIMEOUT" with
  | none => .ok none
  | some text =>
    match Decimal.read? text.toList with
    | some x => .ok (some x)
    | none => .error (badLimit text)

/-- The settings of an environment. Its log level has to be one that exists. Nothing but the variables
is read. -/
def load (env : Environment) : Except Failure Settings := do
  let limit ← execLimit? env
  let level :=
    String.ofList (Text.upper ((value? env "TIDEPIPE_LOG_LEVEL").getD defaultLevel).toList)
  if levels.contains level then pure ⟨value? env "TIDEPIPE_TOKEN_SECRET", limit⟩
  else throw (unknownLevel level)

/-- The key of tokens: the bytes of the secret, where one is set. -/
def tokenKey (s : Settings) : Except Failure (Option (List UInt8)) :=
  match s.tokenSecret with
  | none => .ok none
  | some secret => do
    let text ← encodableText secret
    pure (some (Utf8.encode text.toList))

end Settings

end Sluice
