import Sluice.Command.Approve
import Sluice.Command.Exec
import Sluice.Command.Invoke
import Sluice.Command.Table
import Sluice.Command.Transform

/-!
The commands that a pipeline can name. A registry holds commands of distinct names in the order they
were registered.
-/

namespace Sluice

/-- Commands of distinct names. -/
structure Registry where
  commands : List Command
  distinct : (commands.map Command.name).Nodup

namespace Registry

/-- The first name that also stands before it, empty if all names are distinct. -/
def firstRepeated (seen : List String) : List String → String
  | [] => ""
  | name :: rest => if name ∈ seen then name else firstRepeated (name :: seen) rest

/-- The registry of some commands, refused at the first repeated name. -/
def ofList (commands : List Command) : Except Failure Registry :=
  let names := commands.map Command.name
  if h : names.Nodup then .ok ⟨commands, h⟩
  else .error (.duplicateCommand (firstRepeated [] names))

def find? (r : Registry) (name : String) : Option Command :=
  r.commands.find? fun c => c.name == name

/-- The names in the order of registration. -/
def names (r : Registry) : List String :=
  r.commands.map Command.name

end Registry

/-- The commands that come with the program, with a time limit for subprocesses. -/
def builtinCommands (limit : Option Binary64) : List Command :=
  [.exec limit, .json, .head, .pick, .filter, .table, .approve, .invoke .standard]

def Registry.builtin (limit : Option Binary64) : Registry :=
  ⟨builtinCommands limit, by
    show ["exec", "json", "head", "pick", "where", "table", "approve", "invoke"].Nodup
    decide⟩

end Sluice
