import Sluice.Decimal.Binary64

/-!
The decimal digits of a floating point number: the fewest that read back as the same number, and
among those the nearest to it. Each number of digits has two candidates, the value cut off there
and its successor. The exact expansion stands behind the search, so what it returns always reads
back.
-/

namespace Sluice.Decimal

/-- A decimal number `digits * 10 ^ exponent`. -/
structure Scaled where
  digits : Nat
  exponent : Int
  deriving DecidableEq, Repr

namespace Scaled

def reads (d : Scaled) (x : Magnitude) : Bool :=
  Binary64.ofDecimal false d.digits d.exponent == .finite false x

/-- The number without the zeros at the end of its digits. The fuel bounds how many go. -/
def dropZeros : Nat → Scaled → Scaled
  | 0, d => d
  | fuel + 1, d =>
    if d.digits ≠ 0 ∧ d.digits % 10 = 0 then dropZeros fuel ⟨d.digits / 10, d.exponent + 1⟩ else d

end Scaled

/-- The exact value of a size: a unit has 1074 decimal places. -/
def exact (x : Magnitude) : Scaled :=
  ⟨x.units * Nat.pow 5 1074, -1074⟩

def digitCount (n : Nat) : Nat :=
  (Nat.toDigits 10 n).length

/-- Of two candidates that read back the first or the second, else the one that reads back. -/
def choose (x : Magnitude) (low high : Scaled) (lowFirst : Bool) : Option Scaled :=
  match low.reads x, high.reads x with
  | true, true => some (if lowFirst then low else high)
  | true, false => some low
  | false, true => some high
  | false, false => none

/-- The candidate with the value cut off before its last `cut` places, or its successor: of two
that read back the nearer one, of two equally near the even one. -/
def candidate? (x : Magnitude) (cut : Nat) : Option Scaled :=
  let e := exact x
  let place := Nat.pow 10 cut
  let low : Scaled := ⟨e.digits / place, e.exponent + cut⟩
  let high : Scaled := ⟨low.digits + 1, low.exponent⟩
  let twice := 2 * (e.digits % place)
  choose x low high (twice < place || (twice == place && low.digits % 2 == 0))

/-- The first value that a trial gives, counting down to zero, or a last resort. -/
def firstBelow {α : Type} (trial : Nat → Option α) (last : α) : Nat → α
  | 0 => last
  | n + 1 =>
    match trial n with
    | some a => a
    | none => firstBelow trial last n

/-- The first candidate with at least `total - cut` digits, longer ones being tried in order. -/
def search (x : Magnitude) (cut : Nat) : Scaled :=
  firstBelow (candidate? x) (exact x) cut

/-- The shortest decimal number that reads back as a size, without zeros at its end. -/
def shortest (x : Magnitude) : Scaled :=
  let total := digitCount (exact x).digits
  (search x total).dropZeros total

end Sluice.Decimal
