import Sluice.Decimal.Shortest

/-!
How a decimal number is laid out as text: in plain places where its exponent is small, and with an
exponent otherwise. The choices of a format are one record.
-/

namespace Sluice.Decimal

/-- The choices of a format. Plain places serve the numbers whose first digit stands for a power of
ten from `plainFrom` up to `plainBelow`; an exponent has a sign before it if negative or `plusSign`
is set, and at least `exponentWidth` digits. -/
structure Notation where
  plainFrom : Int
  plainBelow : Int
  exponentWidth : Nat
  plusSign : Bool
  nan : String
  infinity : String
  negativeInfinity : String

/-- Zeros in front of a text up to a width. -/
def zeroFilled (width : Nat) (cs : List Char) : List Char :=
  List.replicate (width - cs.length) '0' ++ cs

def digitsOf (n : Nat) : List Char :=
  Nat.toDigits 10 n

/-- Digits with a point after the first `place` of them. Missing places are zeros, and a digit
stands on both sides of the point. -/
def plain (digits : List Char) (place : Int) : List Char :=
  match place with
  | .ofNat 0 => '0' :: '.' :: digits
  | .ofNat n =>
    let whole := digits.take n
    let rest := digits.drop n
    whole ++ List.replicate (n - whole.length) '0' ++ '.' :: (if rest.isEmpty then ['0'] else rest)
  | .negSucc n => '0' :: '.' :: List.replicate (n + 1) '0' ++ digits

namespace Notation

def exponent (f : Notation) (e : Int) : List Char :=
  match e with
  | .ofNat n => 'e' :: (if f.plusSign then ['+'] else []) ++ zeroFilled f.exponentWidth (digitsOf n)
  | .negSucc n => 'e' :: '-' :: zeroFilled f.exponentWidth (digitsOf (n + 1))

/-- One digit before the point, the others after it, then the exponent. -/
def scientific (f : Notation) (digits : List Char) (e : Int) : List Char :=
  match digits with
  | [] => []
  | [d] => d :: f.exponent e
  | d :: rest => d :: '.' :: rest ++ f.exponent e

def size (f : Notation) (x : Magnitude) : List Char :=
  let d := shortest x
  let digits := digitsOf d.digits
  let place := d.exponent + digits.length
  if d.digits = 0 then ['0', '.', '0']
  else if f.plainFrom < place ∧ place ≤ f.plainBelow then plain digits place
  else f.scientific digits (place - 1)

def write (f : Notation) : Binary64 → List Char
  | .nan => f.nan.toList
  | .infinite false => f.infinity.toList
  | .infinite true => f.negativeInfinity.toList
  | .finite false x => f.size x
  | .finite true x => '-' :: f.size x

end Notation

/-- The notation of messages and of JSON text between stages: plain places from a ten-thousandth up
to sixteen whole digits, otherwise an exponent of at least two digits. -/
def spoken : Notation := ⟨-4, 16, 2, true, "nan", "inf", "-inf"⟩

end Sluice.Decimal
