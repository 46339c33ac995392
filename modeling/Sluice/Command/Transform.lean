import Sluice.Command.Basic
import Sluice.Json.Path
import Sluice.Json.Writer

/-!
The commands that turn items into items one at a time: `json` reads text items, `head` keeps the
first ones, `pick` keeps fields of objects and `where` keeps objects that meet conditions.
-/

namespace Sluice

namespace Decode

/-- How much of a text that cannot be read is shown. -/
def previewLength : Nat := 80

/-- The items for one item: those of the JSON text where it is a text, else the item itself. -/
def items : Item → Except Failure (List Item)
  | .value (.str s) =>
    match Json.read s.toList with
    | .ok j => .ok j.items
    | .error e => .error (e.toFailure fun fault _ =>
        .command (.itemNotJson fault (String.ofList (s.toList.take previewLength))))
  | x => .ok [x]

end Decode

def Command.json : Command where
  name := "json"
  help := textOfLines [
    "json -- decode JSON text items",
    "",
    "Usage:",
    "  ... | json",
    "",
    "String items are parsed as JSON; an array becomes one item per element.",
    "Items that are already structured pass through unchanged."]
  run _ _ _ source := .ok (.plain (source.expand Decode.items))

namespace Head

def defaultCount : Int := 10

/-- The number of items that the arguments ask for: `--n`, else the first bare word. -/
def count (args : Args) : Except Failure Nat := do
  let n ←
    match args.flag? "n", args.positional with
    | none, word :: _ =>
      match Text.integer? word.toList with
      | some n => pure n
      | none => refuse (.countNotInteger word)
    | _, _ => args.integer "n" defaultCount
  if n < 0 then refuse .countNegative else pure n.toNat

end Head

def Command.head : Command where
  name := "head"
  help := textOfLines [
    "head -- keep the first N items",
    "",
    "Usage:",
    "  ... | head --n 5",
    "  ... | head 5",
    "",
    "Default N is 10."]
  run _ _ args source := do
    let n ← Head.count args
    pure (.plain (source.take n))

namespace Pick

def fields (args : Args) : List String :=
  splitFields ((args.filled? "fields").getD (",".intercalate args.positional))

/-- The fields of an object that are there, each under its full path. -/
def members (fields : List String) (j : Json) : List (String × Json) :=
  Json.distinct (fields.filterMap fun name => (j.atPath name).map fun v => (name, v))

/-- An object with some of its fields. Other items stay as they are. -/
def item (fields : List String) : Item → Item
  | .value (.obj ms) => .value (.obj (members fields (.obj ms)))
  | x => x

end Pick

def Command.pick : Command where
  name := "pick"
  help := textOfLines [
    "pick -- keep only the listed fields of each object",
    "",
    "Usage:",
    "  ... | pick id,subject,from",
    "  ... | pick --fields id,author.login",
    "",
    "Dotted paths reach into nested objects; the output key is the full path.",
    "Missing fields are omitted.  Non-object items pass through."]
  run _ _ args source :=
    let fields := Pick.fields args
    if fields.isEmpty then refuse .noFields
    else .ok (.plain (source.expand fun x => .ok [Pick.item fields x]))

/-- A condition on objects: the text of the value at a path is the expected one, or is not. -/
structure Condition where
  path : String
  negated : Bool
  expected : String
  deriving DecidableEq

namespace Condition

/-- The condition that a word spells. An unequal sign anywhere in the word is its operator. -/
def parse (raw : String) : Except Failure Condition :=
  let build (negated : Bool) (parts : List Char × List Char) : Except Failure Condition :=
    if parts.1.isEmpty then refuse (.noFieldName raw)
    else .ok ⟨String.ofList parts.1, negated, String.ofList parts.2⟩
  match Text.cutAt? ['!', '='] raw.toList with
  | some parts => build true parts
  | none =>
    match Text.cutAt? ['='] raw.toList with
    | some parts => build false parts
    | none => refuse (.noOperator raw)

/-- The text that a value is compared by: a string as itself, any other value as compact JSON. -/
def textOf : Json → String
  | .str s => s
  | j => Json.text Json.compact j

/-- Whether a value meets a condition. A missing field is unequal to every text. -/
def holds (c : Condition) (j : Json) : Bool :=
  let equal :=
    match j.atPath c.path with
    | some v => textOf v == c.expected
    | none => false
  equal != c.negated

/-- Whether an item is an object that meets all conditions. -/
def keeps (cs : List Condition) : Item → Bool
  | .value (.obj ms) => cs.all fun c => c.holds (.obj ms)
  | _ => false

end Condition

def Command.filter : Command where
  name := "where"
  help := textOfLines [
    "where -- filter objects by field value",
    "",
    "Usage:",
    "  ... | where state=open",
    "  ... | where state!=closed author.login=octocat",
    "",
    "All conditions must hold.  Non-string values compare by their JSON text",
    "(``where draft=false``).  Non-object items are dropped."]
  run _ _ args source := do
    let conditions ← args.positional.mapM Condition.parse
    if conditions.isEmpty then refuse .noConditions
    else pure (.plain (source.expand fun x => .ok (if Condition.keeps conditions x then [x] else [])))

end Sluice
