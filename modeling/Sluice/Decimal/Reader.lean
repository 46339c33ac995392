import Sluice.Decimal.Binary64
import Sluice.Text.Cut
import Sluice.Text.Integer

/-!
Floating point numbers in settings: digits with a point and an exponent, or the words for infinite
and undefined numbers, with blanks around them allowed.
-/

namespace Sluice.Decimal

def isDigit (c : Char) : Bool :=
  '0' ≤ c && c ≤ '9'

def digitsValue (cs : List Char) : Nat :=
  Text.ofDigits (cs.map fun c => c.toNat - 48)

/-- The exponent that a text is, a missing one being zero. -/
def exponent? : List Char → Option Int
  | [] => some 0
  | e :: rest =>
    let digits (cs : List Char) : Option Int :=
      if cs.isEmpty || !cs.all isDigit then none else some (digitsValue cs)
    if e = 'e' ∨ e = 'E' then
      match rest with
      | '-' :: tail => (digits tail).map fun n => -n
      | '+' :: tail => digits tail
      | tail => digits tail
    else none

/-- The number that a text without a sign spells. -/
def unsigned? (negative : Bool) (cs : List Char) : Option Binary64 :=
  let word := String.ofList (cs.map Char.toLower)
  if word = "inf" ∨ word = "infinity" then some (.infinite negative)
  else if word = "nan" then some .nan
  else
    let whole := cs.takeWhile isDigit
    let rest := cs.dropWhile isDigit
    let (fraction, rest) :=
      match rest with
      | '.' :: tail => (tail.takeWhile isDigit, tail.dropWhile isDigit)
      | tail => ([], tail)
    let digits := whole ++ fraction
    if digits.isEmpty then none
    else
      (exponent? rest).map fun e =>
        .ofDecimal negative (digitsValue digits) (e - fraction.length)

/-- The number that a text with an optional sign spells. -/
def signed? : List Char → Option Binary64
  | '-' :: rest => unsigned? true rest
  | '+' :: rest => unsigned? false rest
  | rest => unsigned? false rest

/-- The number that a text spells. Single underscores inside it do not count. -/
def read? (cs : List Char) : Option Binary64 :=
  match signed? (Text.trimOf Text.isNumberBlank cs) with
  | some x => some x
  | none =>
    let groups := Text.splitAt '_' cs
    if groups.all fun g => !g.isEmpty then signed? groups.flatten else none

end Sluice.Decimal
