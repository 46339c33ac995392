/-!
Floating point numbers of 64 bits as exact values. A finite number is `mantissa <<< shift` units,
the unit being the least positive number, so everything about it is arithmetic of natural numbers.
Rounding takes a quotient of natural numbers to the nearest number, a tie to the even mantissa.
-/

namespace Sluice

/-- The size of a finite number. The mantissa has at most 53 bits, and fewer only at the bottom of
the range, so each size has one form. -/
structure Magnitude where
  mantissa : Nat
  shift : Nat
  mantissa_lt : mantissa < 1 <<< 53
  shift_le : shift ≤ 2045
  normal : shift = 0 ∨ 1 <<< 52 ≤ mantissa
  deriving DecidableEq

inductive Binary64 where
  | nan
  | infinite (negative : Bool)
  | finite (negative : Bool) (size : Magnitude)
  deriving DecidableEq

namespace Magnitude

/-- How many units make one: the least positive number is the reciprocal of this. -/
def unitsPerOne : Nat := 1 <<< 1074

def units (x : Magnitude) : Nat :=
  x.mantissa <<< x.shift

def zero : Magnitude := ⟨0, 0, by decide, by decide, .inl rfl⟩

instance : Inhabited Magnitude := ⟨zero⟩

/-- The quotient rounded to the nearest whole number, a tie to the even one. -/
def roundDiv (num den : Nat) : Nat :=
  let q := num / den
  let twice := 2 * (num % den)
  if den < twice ∨ (twice = den ∧ q % 2 = 1) then q + 1 else q

/-- The size with a mantissa and a shift, where these make one in range. -/
def ofParts? (mantissa shift : Nat) : Option Magnitude :=
  if h : mantissa < 1 <<< 53 ∧ shift ≤ 2045 ∧ (shift = 0 ∨ 1 <<< 52 ≤ mantissa) then
    some ⟨mantissa, shift, h.1, h.2.1, h.2.2⟩
  else none

/-- The size nearest to `num / den` units, or none when that is past the largest. -/
def ofQuotient? (num den : Nat) : Option Magnitude :=
  let shift := (num / den).log2 - 52
  let mantissa := roundDiv num (den <<< shift)
  if mantissa = 1 <<< 53 then ofParts? (1 <<< 52) (shift + 1) else ofParts? mantissa shift

end Magnitude

namespace Binary64

/-- Whether the number is neither infinite nor undefined. -/
def isFinite : Binary64 → Bool
  | .finite _ _ => true
  | _ => false

/-- The number nearest to `digits * 10 ^ exponent`. Exponents far outside the range are decided
without computing the power. -/
def ofDecimal (negative : Bool) (digits : Nat) (exponent : Int) : Binary64 :=
  if digits = 0 then .finite negative .zero
  else
    match exponent with
    | .ofNat up =>
      if 400 < up then .infinite negative
      else
        match Magnitude.ofQuotient? (digits * Nat.pow 10 up * Magnitude.unitsPerOne) 1 with
        | some size => .finite negative size
        | none => .infinite negative
    | .negSucc d =>
      if digits.log2 + 1100 < d then .finite negative .zero
      else
        match Magnitude.ofQuotient? (digits * Magnitude.unitsPerOne) (Nat.pow 10 (d + 1)) with
        | some size => .finite negative size
        | none => .infinite negative

end Binary64

end Sluice
