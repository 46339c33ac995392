import Sluice.Json.Reader

/-!
How deep a text goes before its reader stops. Each array and object that is opened takes room until it
is closed, so a text can ask for more than there is, whether or not it is JSON to its end. Where there
is enough the room makes no difference to what is read. It is tokens that are read with a limit; in a
run, where a reader that gives up is one more failure of the run, there is room for every text.
-/

namespace Sluice.Json

/-- What can stand inside one another. -/
inductive Container where
  | array
  | object
  deriving DecidableEq

def Container.name : Container → String
  | .array => "array"
  | .object => "object"

mutual

/-- The array or object for which there is no room left when a value is read. -/
def overflow? : (room fuel : Nat) → List Char → Option Container
  | _, 0, _ => none
  | 0, _ + 1, cs =>
    match cs with
    | '[' :: _ => some .array
    | '\x7b' :: _ => some .object
    | _ => none
  | room + 1, fuel + 1, cs =>
    match cs with
    | '[' :: rest => overflowElements? room fuel (skipSpace rest)
    | '\x7b' :: rest => overflowMembers? room fuel (skipSpace rest)
    | _ => none

/-- `overflow?` for the elements of an array as far as they are read. -/
def overflowElements? : (room fuel : Nat) → List Char → Option Container
  | _, 0, _ => none
  | room, fuel + 1, cs =>
    (overflow? room fuel cs).orElse fun _ =>
      match readValue fuel cs with
      | .error _ => none
      | .ok (_, rest) =>
        match skipSpace rest with
        | ',' :: rest => overflowElements? room fuel (skipSpace rest)
        | _ => none

/-- `overflow?` for the members of an object as far as they are read. -/
def overflowMembers? : (room fuel : Nat) → List Char → Option Container
  | _, 0, _ => none
  | room, fuel + 1, cs =>
    match cs with
    | '"' :: rest =>
      match readString cs rest with
      | .error _ => none
      | .ok (_, rest) =>
        match skipSpace rest with
        | ':' :: rest =>
          (overflow? room fuel (skipSpace rest)).orElse fun _ =>
            match readValue fuel (skipSpace rest) with
            | .error _ => none
            | .ok (_, rest) =>
              match skipSpace rest with
              | ',' :: rest => overflowMembers? room fuel (skipSpace rest)
              | _ => none
        | _ => none
    | _ => none

end

/-- The array or object of a whole text for which there is no room left. -/
def opensTooMany? (room : Nat) (cs : List Char) : Option Container :=
  match cs with
  | '\ufeff' :: _ => none
  | _ => overflow? room (2 * cs.length + 2) (skipSpace cs)

end Sluice.Json
