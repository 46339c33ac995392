import Sluice.Text.Half
import Sluice.Text.Printable

/-!
Text shown inside a message: in quotes, on one line, with everything that does not print written
as an escape. Single quotes are used unless the text holds a single quote and no double quote.
-/

namespace Sluice.Text

/-- A character as its code, with as many digits as the code needs. -/
def escapedCode (c : Char) : List Char :=
  if c.toNat < 0x100 then '\\' :: 'x' :: hex 2 c.toNat
  else if c.toNat < 0x10000 then '\\' :: 'u' :: hex 4 c.toNat
  else '\\' :: 'U' :: hex 8 c.toNat

/-- One character between the quotes `q`. -/
def quotedChar (q : Char) (c : Char) : List Char :=
  if c == q || c == '\\' then ['\\', c]
  else if c == '\n' then ['\\', 'n']
  else if c == '\r' then ['\\', 'r']
  else if c == '\t' then ['\\', 't']
  else if isPrintable c then [c]
  else escapedCode c

/-- The quote that a text is shown in. -/
def quoteFor (cs : List Char) : Char :=
  if cs.contains '\'' && !cs.contains '"' then '"' else '\''

/-- The text in quotes. -/
def quoted (cs : List Char) : List Char :=
  let q := quoteFor cs
  q :: spell escapedHalf (quotedChar q) cs ++ [q]

end Sluice.Text

namespace Sluice

def quote (s : String) : String :=
  String.ofList (Text.quoted s.toList)

end Sluice
