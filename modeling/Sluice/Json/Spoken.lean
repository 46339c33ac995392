import Sluice.Json.Writer
import Sluice.Text.Quoted

/-!
A JSON value as it is shown inside a message: strings in the quotes of messages, the words `None`,
`True` and `False`, and a blank after each comma and colon.
-/

namespace Sluice.Json

mutual

/-- The value as shown in a message. -/
def spoken : Json → List Char
  | .null => "None".toList
  | .bool true => "True".toList
  | .bool false => "False".toList
  | .int n => writeInt n
  | .float x => Decimal.spoken.write x
  | .str s => Text.quoted s.toList
  | .arr xs => '[' :: spokenList xs ++ [']']
  | .obj members => '\x7b' :: spokenMembers members ++ ['\x7d']

def spokenList : List Json → List Char
  | [] => []
  | [x] => x.spoken
  | x :: y :: rest => x.spoken ++ ", ".toList ++ spokenList (y :: rest)

def spokenMembers : List (String × Json) → List Char
  | [] => []
  | [(k, v)] => Text.quoted k.toList ++ ": ".toList ++ v.spoken
  | (k, v) :: (l, w) :: rest =>
    Text.quoted k.toList ++ ": ".toList ++ v.spoken ++ ", ".toList ++ spokenMembers ((l, w) :: rest)

end

end Sluice.Json
