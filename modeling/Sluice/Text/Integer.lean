import Sluice.Text.Blank
import Sluice.Text.DecimalDigit

/-!
Whole numbers in words of a pipeline: an optional sign and decimal digits of any script, with a
single underscore allowed between two digits and blanks allowed around the number.
-/

namespace Sluice.Text

/-- The most digits a whole number may have. -/
def maxDigits : Nat := 4300

/-- The blanks that may stand around a number: all but the four ASCII separators. -/
def isNumberBlank (c : Char) : Bool :=
  isBlank c && !(0x1c ≤ c.toNat && c.toNat ≤ 0x1f)

/-- The digits of a text that starts with a digit and has an underscore only between digits. -/
def groupedDigits? : List Char → Option (List Nat)
  | [] => none
  | [c] => (digitValue? c).map fun d => [d]
  | c :: '_' :: rest => do
    let d ← digitValue? c
    let ds ← groupedDigits? rest
    pure (d :: ds)
  | c :: rest => do
    let d ← digitValue? c
    let ds ← groupedDigits? rest
    pure (d :: ds)

/-- The number that decimal digits spell, most significant first. -/
def ofDigits (ds : List Nat) : Nat :=
  ds.foldl (fun n d => 10 * n + d) 0

/-- The number a text without a sign spells, unless it has too many digits. -/
def natural? (cs : List Char) : Option Nat :=
  match groupedDigits? cs with
  | some ds => if ds.length ≤ maxDigits then some (ofDigits ds) else none
  | none => none

/-- The whole number that a sign and digits spell, with nothing around them. -/
def signed? : List Char → Option Int
  | '-' :: rest => (natural? rest).map fun n => -(n : Int)
  | '+' :: rest => (natural? rest).map fun n => (n : Int)
  | rest => (natural? rest).map fun n => (n : Int)

/-- The whole number that a text spells, blanks around it aside. -/
def integer? (cs : List Char) : Option Int :=
  signed? (trimOf isNumberBlank cs)

end Sluice.Text
