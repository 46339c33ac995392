import Sluice.Text.Blank
import Sluice.Text.Cut

/-!
Pipelines: stages in the order they run, each a command name with the raw text of its arguments.
-/

namespace Sluice

/-- The value of an argument: one text, or the texts of an argument that may stand repeatedly. -/
inductive ArgValue where
  | single (s : String)
  | many (ss : List String)
  deriving DecidableEq

/-- The arguments of a stage by name. Bare words are kept under the name `_`. -/
abbrev Args := List (String × ArgValue)

structure Invocation where
  name : String
  args : Args
  deriving DecidableEq

abbrev Pipeline := List Invocation

def ArgValue.texts : ArgValue → List String
  | .single s => [s]
  | .many ss => ss

namespace Args

/-- The name under which bare words are kept. -/
def bareName : String := "_"

/-- The arguments of a stage that names a command and nothing else. -/
def empty : Args := [(bareName, .many [])]

/-- The texts of a name, none where it does not stand. -/
def texts (args : Args) (name : String) : List String :=
  match args.lookup name with
  | some v => v.texts
  | none => []

def positional (args : Args) : List String :=
  args.texts bareName

/-- The value of a flag: the last one where it is repeated. -/
def flag? (args : Args) (name : String) : Option String :=
  (args.texts name).getLast?

/-- The value of a flag, where a flag without text counts as absent. -/
def filled? (args : Args) (name : String) : Option String :=
  (args.flag? name).filter fun s => !s.isEmpty

/-- Whether a text is the given word in letters of either case. -/
def isWord (word s : String) : Bool :=
  s.toList.map Char.toLower == word.toList

/-- Whether a flag stands and is not one of the words that switch it off. -/
def enabled (args : Args) (name : String) : Bool :=
  match args.flag? name with
  | some v => !(["false", "0", "no"].any fun w => isWord w v)
  | none => false

/-- The values of a name with one more text. -/
def add (args : Args) (name text : String) : Args :=
  match args with
  | [] => [(name, .single text)]
  | (k, v) :: rest =>
    if k = name then
      match v with
      | .single s => (k, .many [s, text]) :: rest
      | .many ss => (k, .many (ss ++ [text])) :: rest
    else (k, v) :: add rest name text

end Args

/-- The fields of a list with commas between them. Blanks around a field and blank fields go. -/
def splitFields (raw : String) : List String :=
  ((Text.splitAt ',' raw.toList).map Text.trim).filter (!·.isEmpty) |>.map String.ofList

end Sluice
