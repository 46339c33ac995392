import Sluice.CommandLine.ModeWords
import Sluice.CommandLine.Options
import Sluice.Envelope
import Sluice.Pipeline.Parse
import Sluice.Run
import Sluice.Settings
import Sluice.Text.ControlSequence
import Sluice.Usage

/-!
The command line: `run` runs a pipeline, `resume` goes on with a halted one, `help` shows the
overview or the help of a command. What is printed while a pipeline runs is an effect; what is
printed at the end, and the exit code, are the result.
-/

namespace Sluice.CommandLine

/-- The end of a call of the program: its exit code and what it still writes. -/
structure Exit where
  code : Nat
  stdout : String
  stderr : String
  deriving DecidableEq

def Exit.success (stdout : String) : Exit := ⟨0, stdout, ""⟩

/-- A text as it goes to the error output: without control sequences, and with halves of characters as
escapes. -/
def errorText (s : String) : String :=
  String.ofList (Text.escapeHalves (plainText s).toList)

/-- The exit code of failures at run time. -/
def runtimeCode : Nat := 1

/-- The exit code of pipelines that cannot be parsed, and of wrong words. -/
def parseCode : Nat := 2

def usageName : String := "main"

/-- A subcommand as usage texts show it: its name and the form of its words. -/
structure Form where
  name : String
  words : String

/-- The form of the program itself. -/
def mainForm : Form := ⟨usageName, "[OPTIONS] COMMAND [ARGS]..."⟩

def runForm : Form := ⟨s!"{usageName} run", "[OPTIONS] [PIPELINE]..."⟩

def resumeForm : Form := ⟨s!"{usageName} resume", "[OPTIONS]"⟩

def helpForm : Form := ⟨s!"{usageName} help", "[OPTIONS] [TOPIC]"⟩

def Form.usage (f : Form) : String :=
  s!"Usage: {f.name} {f.words}\n"

/-- Wrong words: the form and what is wrong. -/
def usageError (f : Form) (message : String) : Exit :=
  let shown := errorText message
  ⟨parseCode, "", s!"{f.usage}Try '{f.name} --help' for help.\n\nError: {shown}\n"⟩

/-- Wrong options. Values that are missing or too many are reported without the form. -/
def optionError (f : Form) : OptionError → Exit
  | .unknown name like =>
    usageError f (s!"No such option {quote name}." ++ suggestion "options" like)
  | .missingValue name => ⟨parseCode, "", s!"Error: Option {quote name} requires an argument.\n"⟩
  | .valueForHelp => ⟨parseCode, "", "Error: Option '--help' does not take a value.\n"⟩

/-- The exit code that comes with a failure. -/
def errorCode : ErrorType → Nat
  | .parse => parseCode
  | .runtime => runtimeCode

/-- The exit code that comes with an envelope. -/
def envelopeCode : Envelope → Nat
  | .failed type _ => errorCode type
  | .completed _ | .needsApproval _ _ | .cancelled => 0

/-- The end of a call that prints an envelope. One that cannot be printed is a failure of the call. -/
def Exit.report (e : Envelope) : Except Failure Exit := do
  let text ← e.print
  pure ⟨envelopeCode e, text, ""⟩

/-- The report of a failure in the form that the mode demands. -/
def failure (mode : Mode) (type : ErrorType) (message report : String) : Except Failure Exit :=
  match mode with
  | .tool => Exit.report (.failed type report)
  | .human =>
    let start :=
      match type with
      | .parse => "Parse error"
      | .runtime => "Error"
    .ok ⟨errorCode type, "", errorText s!"{start}: {message}\n"⟩

def runtimeFailure (mode : Mode) (f : Failure) : Except Failure Exit :=
  failure mode .runtime f.message f.report

def parseFailure (mode : Mode) (e : SyntaxError) : Except Failure Exit :=
  failure mode .parse e.message e.message

/-- The surroundings of a call: its environment, whether a person can answer questions, and the room for
arrays and objects inside one another when the text of a token is read. -/
structure Surroundings where
  env : Environment
  interactive : Bool
  room : Nat

def Surroundings.context (s : Surroundings) (mode : Mode) : Context :=
  ⟨mode, s.env, s.interactive⟩

/-- The end of a run: the envelope for a tool, the list of items for a person. -/
def present (mode : Mode) (key : Except Failure (Option (List UInt8))) (pipeline : Pipeline)
    (r : Except Failure Outcome) : Except Failure Exit :=
  match mode with
  | .tool => Exit.report (.ofRun key pipeline r)
  | .human =>
    match r with
    | .ok o => o.listing.map Exit.success
    | .error f => runtimeFailure .human f

/-- Runs a pipeline on a source and presents how it ends. -/
def perform (s : Surroundings) (settings : Settings) (mode : Mode) (pipeline : Pipeline)
    (source : Stream) : Program Exit := do
  let registry := Registry.builtin settings.execLimit
  let r ← (pipeline.run registry (s.context mode) source).attempt
  Program.ofExcept (present mode settings.tokenKey pipeline r)

def runWords (s : Surroundings) (mode : Mode) (words : List String) : Program Exit :=
  match Settings.load s.env with
  | .error f => Program.ofExcept (runtimeFailure mode f)
  | .ok settings =>
    match Pipeline.parse (" ".intercalate words) with
    | .error e => Program.ofExcept (parseFailure mode e)
    | .ok pipeline => perform s settings mode pipeline .done

def runGrammar : Grammar := ⟨[modeOption], true, false⟩

/-- `run`: options, then the words of a pipeline. -/
def run (s : Surroundings) (args : List String) : Program Exit :=
  match parseOptions runGrammar args with
  | .error e => pure (optionError runForm e)
  | .ok p =>
    if p.help then pure (.success runForm.usage)
    else
      let mode := (p.value? modeOption).getD "human"
      match mode? mode with
      | none => pure (usageError runForm (ModeError.notAMode mode).message)
      | some _ =>
        match stripMode mode p.words with
        | .error e => pure (usageError runForm e.message)
        | .ok (mode, words) => runWords s mode words

/-- The words that stand for yes and no, in order. -/
def decisions : List (String × Bool) :=
  [("", false), ("0", false), ("1", true), ("f", false), ("false", false), ("n", false),
    ("no", false), ("off", false), ("on", true), ("t", true), ("true", true), ("y", true),
    ("yes", true)]

/-- The decision that a word stands for, blanks around it and the case of letters aside. -/
def decision? (word : String) : Option Bool :=
  decisions.lookup (String.ofList ((Text.trim word.toList).map Char.toLower))

def badDecision (word : String) : String :=
  s!"Invalid value for '--approve': {quote word} is not a valid boolean. Recognized values: " ++
    ", ".intercalate (decisions.map Prod.fst)

def extraWords (words : List String) : String :=
  let noun := if words.length = 1 then "argument" else "arguments"
  let shown := " ".intercalate words
  s!"Got unexpected extra {noun} ({shown})"

/-- The continuation in a token that is signed with the key of the settings. -/
def openToken (s : Surroundings) (settings : Settings) (token : Option String) :
    Except Failure Continuation := do
  let key ← settings.tokenKey
  Token.decodeWithin s.room key token

/-- Goes on with the run in a token, or gives it up. Only errors of the token are reported; any other
failure to read it goes through. -/
def resumeToken (s : Surroundings) (token : Option String) (approved : Bool) : Program Exit :=
  match Settings.load s.env with
  | .error f => Program.ofExcept (runtimeFailure .tool f)
  | .ok settings =>
    match openToken s settings token with
    | .error (.token e) => Program.ofExcept (runtimeFailure .tool (.token e))
    | .error f => .fail f
    | .ok c =>
      if approved then perform s settings .tool c.remaining (.ofList c.items)
      else Program.ofExcept (Exit.report .cancelled)

def resumeGrammar : Grammar := ⟨["--approve", "--token"], false, true⟩

/-- `resume`: a token and a decision. -/
def resume (s : Surroundings) (args : List String) : Program Exit :=
  match parseOptions resumeGrammar args with
  | .error e => pure (optionError resumeForm e)
  | .ok p =>
    if p.help then pure (.success resumeForm.usage)
    else
      let word := (p.value? "--approve").getD ""
      match decision? word with
      | none => pure (usageError resumeForm (badDecision word))
      | some approved =>
        if p.words.isEmpty then resumeToken s (p.value? "--token") approved
        else pure (usageError resumeForm (extraWords p.words))

/-- The overview, or the help of a command. -/
def showHelp (s : Surroundings) (topic : Option String) : Except Failure Exit :=
  match Settings.load s.env with
  | .error f => runtimeFailure .human f
  | .ok settings =>
    let registry := Registry.builtin settings.execLimit
    match topic with
    | none => .ok (.success (Usage.render Usage.programName registry))
    | some name =>
      match registry.find? name with
      | some command => .ok (.success command.help)
      | none => .ok ⟨parseCode, "", errorText ((Failure.unknownCommand name).message ++ "\n")⟩

def helpGrammar : Grammar := ⟨[], false, true⟩

/-- `help`: at most one topic. -/
def help (s : Surroundings) (args : List String) : Except Failure Exit :=
  match parseOptions helpGrammar args with
  | .error e => .ok (optionError helpForm e)
  | .ok p =>
    if p.help then .ok (.success helpForm.usage)
    else
      match p.words with
      | [] => showHelp s none
      | [topic] => showHelp s (some topic)
      | _ :: extra => .ok (usageError helpForm (extraWords extra))

def mainGrammar : Grammar := ⟨[], false, false⟩

/-- The names of the subcommands in order. -/
def subcommands : List String := ["help", "resume", "run"]

/-- The report of a subcommand that does not exist. A word that looks like options counts as options
here, wherever it stands. -/
def noSuchCommand (name : String) (rest : List String) : Exit :=
  match parseOptions mainGrammar (name :: rest) with
  | .error e => optionError mainForm e
  | .ok p =>
    if p.help then .success mainForm.usage
    else
      usageError mainForm
        (s!"No such command {quote name}." ++ suggestion "commands" (namesLike name subcommands))

def call (s : Surroundings) (args : List String) : Program Exit :=
  match parseOptions mainGrammar args with
  | .error e => pure (optionError mainForm e)
  | .ok p =>
    if p.help then pure (.success mainForm.usage)
    else
      match p.words with
      | [] => pure (usageError mainForm "Missing command.")
      | "run" :: rest => run s rest
      | "resume" :: rest => resume s rest
      | "help" :: rest => Program.ofExcept (help s rest)
      | name :: rest => pure (noSuchCommand name rest)

end Sluice.CommandLine
