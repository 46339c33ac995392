import Sluice.CommandLine.Suggestion
import Sluice.Text.Cut

/-!
Options of a command line. An option is a word that begins with a dash; its value is what follows
an equals sign in it, or else the next word. Words that are no options are kept in order.
-/

namespace Sluice.CommandLine

/-- What the words of a subcommand may be. -/
structure Grammar where
  /-- The options that take a value, in the order of their names. -/
  valued : List String
  /-- Whether options that are not known are kept as words. -/
  keepUnknown : Bool
  /-- Whether options may follow the first word. -/
  interspersed : Bool

def helpOption : String := "--help"

/-- The long names of all options in order. -/
def Grammar.names (g : Grammar) : List String :=
  let (before, after) := g.valued.partition (· < helpOption)
  before ++ helpOption :: after

/-- What is wrong with the words of a subcommand. An option that does not exist comes with the
names that are like it. -/
inductive OptionError where
  | unknown (name : String) (like : List String)
  | missingValue (name : String)
  | valueForHelp
  deriving DecidableEq

/-- The words of a subcommand, sorted out: options with their values in order, whether help is
asked for, and the other words. -/
structure Parsed where
  values : List (String × String)
  help : Bool
  words : List String

namespace Parsed

/-- The value of an option: the last one where it is repeated. -/
def value? (p : Parsed) (name : String) : Option String :=
  (p.values.reverse.lookup name)

def addValue (p : Parsed) (name value : String) : Parsed :=
  { p with values := (name, value) :: p.values }

def addHelp (p : Parsed) : Parsed :=
  { p with help := true }

def addWord (p : Parsed) (word : String) : Parsed :=
  { p with words := word :: p.words }

end Parsed

def isOption (word : String) : Bool :=
  match word.toList with
  | '-' :: _ :: _ => true
  | _ => false

/-- Whether a word begins with two dashes. -/
def isLong (word : String) : Bool :=
  "--".toList.isPrefixOf word.toList

/-- What a word of single letters after one dash holds: whether help is among them, and the letters
that are not known. -/
def shortLetters (letters : List Char) : Bool × List Char :=
  (letters.contains 'h', letters.filter (· != 'h'))

def parseOptions (g : Grammar) : List String → Except OptionError Parsed
  | [] => .ok ⟨[], false, []⟩
  | word :: rest =>
    if word = "--" then .ok ⟨[], false, rest⟩
    else if !isOption word then
      if g.interspersed then (parseOptions g rest).map (·.addWord word)
      else .ok ⟨[], false, word :: rest⟩
    else
      let (name, value) :=
        match Text.cutAt? ['='] word.toList with
        | some (name, value) => (String.ofList name, some (String.ofList value))
        | none => (word, none)
      if g.valued.contains name then
        match value with
        | some v => (parseOptions g rest).map (·.addValue name v)
        | none =>
          match rest with
          | [] => .error (.missingValue name)
          | v :: after => (parseOptions g after).map (·.addValue name v)
      else if name = helpOption then
        match value with
        | some _ => .error .valueForHelp
        | none => (parseOptions g rest).map (·.addHelp)
      else if isLong word then
        if g.keepUnknown then (parseOptions g rest).map (·.addWord word)
        else .error (.unknown name (namesLike name g.names))
      else
        let (help, unknown) := shortLetters (word.toList.drop 1)
        match unknown with
        | [] => (parseOptions g rest).map (·.addHelp)
        | c :: _ =>
          if g.keepUnknown then
            (parseOptions g rest).map fun p =>
              let p := p.addWord (String.ofList ('-' :: unknown))
              if help then p.addHelp else p
          else .error (.unknown (String.ofList ['-', c]) [])

end Sluice.CommandLine
