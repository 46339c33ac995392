import Sluice.CommandLine.Basic

/-!
The program. Its calls are decided by `CommandLine.call`; here their effects are carried out. Starting
subprocesses and sending requests is not possible from here, and both are answered as failures.
-/

namespace Sluice.Main

/-- How many arrays and objects may stand inside one another in a token: the usual limit to calls inside
calls, less those that are going on. -/
def room : Nat := 950

/-- The variables of the environment that count. -/
def variableNames : List String :=
  ["TIDEPIPE_LOG_LEVEL", "TIDEPIPE_TOKEN_SECRET", "TIDEPIPE_EXEC_TIMEOUT", urlVariable,
    tokenVariable]

def environment : IO Environment := do
  let found ← variableNames.mapM fun name => do
    pure ((← IO.getEnv name).map fun value => (name, value))
  pure (found.filterMap id)

def answer : (e : Effect) → IO e.Answer
  | .start _ | .note _ => pure ()
  | .print text => IO.print text
  | .spawn _ _ =>
    pure (.finished [] (Utf8.encode "subprocesses cannot be started here".toList) 127)
  | .post _ => pure (.unreachable "requests cannot be sent from here")
  | .confirm question => do
    IO.eprint s!"{question} [y/N]: "
    let line ← (← IO.getStdin).getLine
    pure (["y", "yes"].contains (trimmed line).toLower)

def carryOut {α : Type} : Program α → IO (Except Failure α)
  | .pure a => pure (.ok a)
  | .fail f => pure (.error f)
  | .perform _ e next => do
    let a ← answer e
    carryOut (next a)

end Sluice.Main

/-- One call of the program with the words after its name. -/
def main (args : List String) : IO UInt32 := do
  let surroundings : Sluice.CommandLine.Surroundings :=
    ⟨← Sluice.Main.environment, ← (← IO.getStdin).isTty, Sluice.Main.room⟩
  match ← Sluice.Main.carryOut (Sluice.CommandLine.call surroundings args) with
  | .ok result =>
    IO.print result.stdout
    IO.eprint result.stderr
    pure (UInt32.ofNat result.code)
  | .error f =>
    IO.eprint s!"Error: {f.message}\n"
    pure 1
