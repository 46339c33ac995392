import Sluice.Text.Likeness
import Sluice.Text.Quoted

/-!
Remarks on names that were probably misspelt: which of the names that exist are like a given one.
-/

namespace Sluice.CommandLine

/-- The names that are like a word. -/
def namesLike (word : String) (names : List String) : List String :=
  names.filter fun name => Text.alike name.toList word.toList

/-- The remark after a message about a name of some kind that does not exist. -/
def suggestion (kind : String) : List String → String
  | [] => ""
  | [name] => s!" Did you mean {quote name}?"
  | names =>
    let shown := ", ".intercalate (names.map quote)
    s!" (Possible {kind}: {shown})"

end Sluice.CommandLine
