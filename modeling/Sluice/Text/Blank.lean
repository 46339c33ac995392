/-!
Blank characters and line breaks of Unicode text, and the two operations built on them: removing
the blanks around a text and splitting a text into its lines.
-/

namespace Sluice.Text

/-- White space in the sense of Unicode, together with the four ASCII separators 0x1c to 0x1f. -/
def isBlank (c : Char) : Bool :=
  let n := c.toNat
  (0x09 ≤ n && n ≤ 0x0d) || (0x1c ≤ n && n ≤ 0x20) || n == 0x85 || n == 0xa0 || n == 0x1680 ||
    (0x2000 ≤ n && n ≤ 0x200a) || n == 0x2028 || n == 0x2029 || n == 0x202f || n == 0x205f ||
    n == 0x3000

/-- The characters that end a line. A carriage return and the line feed after it are one end. -/
def isLineBreak (c : Char) : Bool :=
  let n := c.toNat
  (0x0a ≤ n && n ≤ 0x0d) || (0x1c ≤ n && n ≤ 0x1e) || n == 0x85 || n == 0x2028 || n == 0x2029

/-- The text without the characters of a class at either end. -/
def trimOf (p : Char → Bool) (cs : List Char) : List Char :=
  ((cs.dropWhile p).reverse.dropWhile p).reverse

/-- The text without the blanks at either end. -/
def trim (cs : List Char) : List Char :=
  trimOf isBlank cs

/-- The lines of a text without their ends. A line end at the end of the text opens no new line. -/
def lines : List Char → List (List Char)
  | [] => []
  | '\r' :: '\n' :: rest => [] :: lines rest
  | c :: rest =>
    if isLineBreak c then [] :: lines rest
    else
      match lines rest with
      | [] => [[c]]
      | line :: more => (c :: line) :: more

/-- A text of blanks only, the empty one included. -/
def isBlankText (cs : List Char) : Bool :=
  cs.all isBlank

end Sluice.Text

namespace Sluice

def trimmed (s : String) : String :=
  String.ofList (Text.trim s.toList)

end Sluice
