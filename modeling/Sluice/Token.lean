import Sluice.Continuation
import Sluice.Digest.Hmac
import Sluice.Json.Finite
import Sluice.Json.Writer
import Sluice.Serialisation
import Sluice.Text.Base64
import Sluice.Text.Cut
import Sluice.Text.Utf8

/-!
Resume tokens: a continuation as text that can be handed out and shows when it was changed. The
body is the JSON of the continuation, with keys in order, in the alphabet that is safe in URLs; a
dot and the keyed digest of the body follow. Reading looks at the digest before it looks at what
the body says.
-/

namespace Sluice.Token

/-- The key that is used where none is configured. -/
def builtinKey : List UInt8 :=
  Utf8.encode "tidepipe-resume-token-v1".toList

/-- The key to sign with. An empty key counts as none. -/
def signingKey (key : Option (List UInt8)) : List UInt8 :=
  match key with
  | none => builtinKey
  | some k => if k.isEmpty then builtinKey else k

/-- The signature of a body. -/
def sign (key : Option (List UInt8)) (body : List Char) : List Char :=
  Text.hexBytes (Hmac.digest (signingKey key) (Utf8.encode body))

/-- The JSON text of a continuation: JSON proper without blanks, with all keys in order. -/
def payload (c : Continuation) : List Char :=
  Json.write Json.compact c.toJson.finite.sorted

/-- A body with its signature. -/
def signed (key : Option (List UInt8)) (body : List Char) : String :=
  String.ofList (body ++ '.' :: sign key body)

/-- The body for a payload of any bytes. -/
def bodyOf (bytes : List UInt8) : List Char :=
  Base64.encode bytes

/-- The text of the token of a continuation. Whether there is one is for `issue` to say. -/
def encode (key : Option (List UInt8)) (c : Continuation) : String :=
  signed key (bodyOf (Utf8.encode (payload c)))

/-- What the serialiser makes of a continuation: it looks at the names of arguments, then goes down
each item. -/
def takeApart (c : Continuation) : Except Failure Unit := do
  c.pipeline.forM fun stage => stage.args.forM fun kv => Json.checkKey kv.1
  Item.takeApartList Json.maxLevels c.items

/-- The token of a continuation, if it can be written: the serialiser has to go down its items, its
whole numbers have to be turned into digits and the text of its payload has to be encoded. -/
def issue (key : Option (List UInt8)) (c : Continuation) : Except Failure String := do
  takeApart c
  c.toJson.checkNumbers
  let _ ← Json.encodable c.toJson (String.ofList (payload c))
  pure (encode key c)

def refuse {α : Type} (e : TokenError) : Except Failure α :=
  .error (.token e)

/-- The body of a token whose signature is right. -/
def openBody (key : Option (List UInt8)) (token : Option String) : Except Failure (List Char) :=
  let cs := (token.getD "").toList
  let text := Text.trim cs
  if text.isEmpty then refuse .missing
  else
    match Text.cutAtLast? '.' text with
    | none => refuse .malformed
    | some (body, signature) =>
      if body.isEmpty || signature.isEmpty || !(cs.all fun c => c.toNat < 0x80) then
        refuse .malformed
      else if sign key body = signature then .ok body
      else refuse .tampered

/-- The JSON value in a body. -/
def readBody (body : List Char) : Except Failure Json :=
  match (Base64.decode? body).bind Utf8.decode? with
  | none => refuse .undecodable
  | some text =>
    match Json.read text with
    | .ok j => .ok j
    | .error e => .error (e.toFailure fun _ _ => .token .undecodable)

/-- The continuation that a payload describes, if it is of the version that is understood. -/
def ofPayload (j : Json) : Except Failure Continuation :=
  match j with
  | .obj ms =>
    let found := (ms.lookup "version").getD .null
    if found = .int Continuation.version then
      match Continuation.ofJson (.obj ms) with
      | .ok c => .ok c
      | .error e => refuse (.invalid e.count)
    else refuse (.version found)
  | _ => refuse .notAnObject

/-- The continuation in a token, read with room for whatever its text opens. -/
def decode (key : Option (List UInt8)) (token : Option String) : Except Failure Continuation := do
  let body ← openBody key token
  let j ← readBody body
  ofPayload j

/-- The array or object in a body for which the reader has no room left. -/
def overflow? (room : Nat) (body : List Char) : Option Json.Container :=
  (Base64.decode? body).bind Utf8.decode? |>.bind (Json.opensTooMany? room)

/-- The continuation in a token, read with room for so many arrays and objects inside one another. The
reader gives up, and the token with it, at the first one for which there is none left. -/
def decodeWithin (room : Nat) (key : Option (List UInt8)) (token : Option String) :
    Except Failure Continuation := do
  let body ← openBody key token
  match overflow? room body with
  | some innermost => throw (.textTooDeep innermost)
  | none => decode key token

end Sluice.Token
