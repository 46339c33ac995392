import Mathlib.Algebra.Group.Nat.Defs
import Sluice.Decimal.Shortest

/-!
Reading decimal numbers back. Rounding looks at a quotient and not at how it is written, so a decimal
number may move its point, and the bounds outside of which no power is computed change nothing. From
this the search for the shortest digits reads back: each candidate is tried before it is taken, and
behind the last of them stands the exact value.
-/

namespace Sluice

namespace Magnitude

theorem roundDiv_scale (num den : Nat) {k : Nat} (hk : 0 < k) :
    roundDiv (num * k) (den * k) = roundDiv num den := by
  have hquotient : num * k / (den * k) = num / den := Nat.mul_div_mul_right num den hk
  have hrest : 2 * (num * k % (den * k)) = 2 * (num % den) * k := by
    rw [Nat.mul_mod_mul_right, Nat.mul_assoc]
  simp only [roundDiv, hquotient, hrest, Nat.mul_lt_mul_right hk,
    Nat.mul_left_inj (Nat.pos_iff_ne_zero.mp hk)]

/-- Numerator and denominator may be multiplied by the same number. -/
theorem ofQuotient?_scale (num den : Nat) {k : Nat} (hk : 0 < k) :
    ofQuotient? (num * k) (den * k) = ofQuotient? num den := by
  have hquotient : num * k / (den * k) = num / den := Nat.mul_div_mul_right num den hk
  have hshift (s : Nat) : (den * k) <<< s = den <<< s * k := by
    simp only [Nat.shiftLeft_eq, Nat.mul_right_comm]
  simp only [ofQuotient?, hquotient, hshift, roundDiv_scale _ _ hk]

theorem roundDiv_one (num : Nat) : roundDiv num 1 = num := by
  simp [roundDiv, Nat.mod_one]

theorem ofParts?_self (x : Magnitude) : ofParts? x.mantissa x.shift = some x := by
  rw [ofParts?, dif_pos ⟨x.mantissa_lt, x.shift_le, x.normal⟩]

theorem log2_mantissa_le (x : Magnitude) : x.mantissa.log2 ≤ 52 := by
  rcases Nat.eq_zero_or_pos x.mantissa with hzero | hpos
  · simp [hzero]
  · have hlt : x.mantissa < 2 ^ 53 := x.mantissa_lt
    have := (Nat.log2_lt (Nat.pos_iff_ne_zero.mp hpos)).mpr hlt
    omega

/-- The shift that rounding chooses for the units of a size is the shift of the size. -/
theorem log2_units (x : Magnitude) : x.units.log2 - 52 = x.shift := by
  rcases x.normal with hzero | hnormal
  · have := x.log2_mantissa_le
    rw [units, hzero, Nat.shiftLeft_zero]
    omega
  · have hlow : 2 ^ 52 ≤ x.mantissa := hnormal
    have hpos : x.mantissa ≠ 0 := by
      intro h
      rw [h] at hlow
      exact absurd hlow (by decide)
    have hlog : 52 ≤ x.mantissa.log2 := (Nat.le_log2 hpos).mpr hlow
    have hunits : x.units.log2 = x.mantissa.log2 + x.shift := by
      have hne : x.mantissa <<< x.shift ≠ 0 := by
        rw [Nat.shiftLeft_eq]
        exact Nat.mul_ne_zero hpos (Nat.pos_iff_ne_zero.mp (Nat.two_pow_pos _))
      rw [units, Nat.log2_eq_iff hne, Nat.shiftLeft_eq, Nat.add_right_comm, Nat.pow_add, Nat.pow_add]
      exact ⟨Nat.mul_le_mul_right _ (Nat.log2_self_le hpos),
        Nat.mul_lt_mul_of_pos_right Nat.lt_log2_self (Nat.two_pow_pos _)⟩
    have := x.log2_mantissa_le
    omega

/-- The units of a size are rounded to the size itself. -/
theorem ofQuotient?_units (x : Magnitude) : ofQuotient? x.units 1 = some x := by
  have hround : roundDiv x.units (1 <<< x.shift) = x.mantissa := by
    have h := roundDiv_scale x.mantissa 1 (Nat.two_pow_pos x.shift)
    rwa [roundDiv_one, ← Nat.shiftLeft_eq, ← Nat.shiftLeft_eq] at h
  have hne : ¬ x.mantissa = 1 <<< 53 := Nat.ne_of_lt x.mantissa_lt
  simp only [ofQuotient?, Nat.div_one, log2_units, hround, if_neg hne, ofParts?_self]

/-- Less than half a unit is rounded to zero. -/
theorem ofQuotient?_tiny {num den : Nat} (h : 2 * num < den) : ofQuotient? num den = some zero := by
  have hlt : num < den := by omega
  have hround : roundDiv num den = 0 := by
    simp only [roundDiv, Nat.div_eq_of_lt hlt, Nat.mod_eq_of_lt hlt]
    rw [if_neg (by omega)]
  simp only [ofQuotient?, Nat.div_eq_of_lt hlt, Nat.log2_zero, Nat.zero_sub, Nat.shiftLeft_zero,
    hround]
  rfl

/-- No size is as large as two to the power of 2099. -/
theorem ofQuotient?_huge {num k : Nat} (hk : 2099 ≤ k) (h : 2 ^ k ≤ num) :
    ofQuotient? num 1 = none := by
  have hpos : num ≠ 0 := Nat.pos_iff_ne_zero.mp (Nat.lt_of_lt_of_le (Nat.two_pow_pos _) h)
  have hlog : k ≤ num.log2 := (Nat.le_log2 hpos).mpr h
  have hparts (m s : Nat) (hs : 2045 < s) : ofParts? m s = none := by
    rw [ofParts?, dif_neg fun hle => Nat.not_le_of_lt hs hle.2.1]
  simp only [ofQuotient?, Nat.div_one]
  rw [hparts _ _ (by omega), hparts _ _ (by omega), ite_self]

end Magnitude

namespace Binary64

def ofQuotient (negative : Bool) (num den : Nat) : Binary64 :=
  match Magnitude.ofQuotient? num den with
  | some size => .finite negative size
  | none => .infinite negative

theorem ofQuotient_some {num den : Nat} {x : Magnitude} (h : Magnitude.ofQuotient? num den = some x)
    (negative : Bool) : ofQuotient negative num den = .finite negative x := by
  rw [ofQuotient, h]

theorem ofQuotient_none {num den : Nat} (h : Magnitude.ofQuotient? num den = none)
    (negative : Bool) : ofQuotient negative num den = .infinite negative := by
  rw [ofQuotient, h]

theorem ofQuotient_scale (negative : Bool) (num den : Nat) {k : Nat} (hk : 0 < k) :
    ofQuotient negative (num * k) (den * k) = ofQuotient negative num den := by
  rw [ofQuotient, ofQuotient, Magnitude.ofQuotient?_scale num den hk]

theorem ofQuotient_negative {num den : Nat} {x : Magnitude}
    (h : ofQuotient false num den = .finite false x) (negative : Bool) :
    ofQuotient negative num den = .finite negative x := by
  unfold ofQuotient at h
  split at h
  · rename_i size hsize
    cases h
    exact ofQuotient_some hsize negative
  · cases h

theorem ofDecimal_zero (negative : Bool) (e : Int) :
    ofDecimal negative 0 e = .finite negative .zero :=
  if_pos rfl

theorem pow_two_le_pow_ten (n : Nat) : 2 ^ (3 * n) ≤ 10 ^ n := by
  rw [Nat.pow_mul]
  exact Nat.pow_le_pow_left (by omega) n

/-- A number over a power of ten that it cannot reach is less than half of one, also in units. -/
theorem lt_pow_ten {digits d : Nat} (n : Nat) (h : digits.log2 + n < 3 * d) :
    2 * (digits * 2 ^ n) < 10 ^ (d + 1) := by
  calc 2 * (digits * 2 ^ n) < 2 * (2 ^ (digits.log2 + 1) * 2 ^ n) := by
        refine Nat.mul_lt_mul_of_pos_left ?_ (by omega)
        exact Nat.mul_lt_mul_of_pos_right Nat.lt_log2_self (Nat.two_pow_pos n)
    _ = 2 ^ (digits.log2 + 1 + n + 1) := by
        rw [Nat.pow_succ 2 (digits.log2 + 1 + n), Nat.pow_add 2 _ n, Nat.mul_comm 2]
    _ ≤ 2 ^ (3 * (d + 1)) := Nat.pow_le_pow_right (by omega) (by omega)
    _ ≤ 10 ^ (d + 1) := pow_two_le_pow_ten (d + 1)

/-- A number times a power of ten is at least a power of two, also in units. -/
theorem le_mul_pow_ten {digits : Nat} (hdigits : digits ≠ 0) (n up : Nat) :
    2 ^ (3 * up + n) ≤ digits * 10 ^ up * 2 ^ n := by
  rw [Nat.pow_add]
  refine Nat.mul_le_mul_right _ (Nat.le_trans (pow_two_le_pow_ten up) ?_)
  exact Nat.le_mul_of_pos_left _ (Nat.pos_of_ne_zero hdigits)

/-- A decimal number is read as the quotient that it is. The bounds on its exponent only save
work. -/
theorem ofDecimal_eq (negative : Bool) {digits : Nat} (hdigits : digits ≠ 0) (e : Int) :
    ofDecimal negative digits e =
      ofQuotient negative (digits * 10 ^ e.toNat * Magnitude.unitsPerOne) (10 ^ (-e).toNat) := by
  have hunits : Magnitude.unitsPerOne = 2 ^ 1074 := Nat.one_shiftLeft 1074
  unfold ofDecimal
  rw [if_neg hdigits]
  split
  · rename_i up
    have hdown : (-(Int.ofNat up)).toNat = 0 := by simp
    rw [hdown, Nat.pow_zero, Int.ofNat_eq_natCast, Int.toNat_natCast]
    split
    · rename_i hup
      have hhuge : 2 ^ (3 * up + 1074) ≤ digits * 10 ^ up * Magnitude.unitsPerOne := by
        rw [hunits]
        exact le_mul_pow_ten hdigits 1074 up
      exact (ofQuotient_none (Magnitude.ofQuotient?_huge (by omega) hhuge) negative).symm
    · split
      · rename_i size hsize
        exact (ofQuotient_some hsize negative).symm
      · rename_i hnone
        exact (ofQuotient_none hnone negative).symm
  · rename_i d
    rw [Int.toNat_negSucc, Int.neg_negSucc, Int.toNat_natCast, Nat.pow_zero, Nat.mul_one]
    split
    · rename_i hlow
      have htiny : 2 * (digits * Magnitude.unitsPerOne) < 10 ^ (d + 1) := by
        rw [hunits]
        exact lt_pow_ten 1074 (by omega)
      exact (ofQuotient_some (Magnitude.ofQuotient?_tiny htiny) negative).symm
    · split
      · rename_i size hsize
        exact (ofQuotient_some hsize negative).symm
      · rename_i hnone
        exact (ofQuotient_none hnone negative).symm

theorem ofDecimal_shift (negative : Bool) (digits : Nat) (e : Int) :
    ofDecimal negative (digits * 10) e = ofDecimal negative digits (e + 1) := by
  rcases Nat.eq_zero_or_pos digits with rfl | hpos
  · rw [Nat.zero_mul, ofDecimal_zero, ofDecimal_zero]
  · have hne : digits ≠ 0 := Nat.pos_iff_ne_zero.mp hpos
    rw [ofDecimal_eq _ (Nat.mul_ne_zero hne (by omega)), ofDecimal_eq _ hne]
    generalize Magnitude.unitsPerOne = units
    rcases Int.lt_or_le e 0 with hneg | hnonneg
    · have hup : e.toNat = 0 := by omega
      have hup' : (e + 1).toNat = 0 := by omega
      have hdown : (-e).toNat = (-(e + 1)).toNat + 1 := by omega
      rw [hup, hup', hdown, Nat.pow_succ, Nat.pow_zero, Nat.mul_one, Nat.mul_one,
        Nat.mul_right_comm, ofQuotient_scale _ _ _ (by omega)]
    · have hup : (e + 1).toNat = e.toNat + 1 := by omega
      have hdown : (-e).toNat = 0 := by omega
      have hdown' : (-(e + 1)).toNat = 0 := by omega
      rw [hup, hdown, hdown', Nat.pow_succ, Nat.mul_comm (10 ^ e.toNat), ← Nat.mul_assoc]

/-- Zeros at the end of the digits only move the point. -/
theorem ofDecimal_zeros (negative : Bool) (digits n : Nat) (e : Int) :
    ofDecimal negative (digits * 10 ^ n) e = ofDecimal negative digits (e + n) := by
  induction n generalizing e with
  | zero => simp
  | succ n ih =>
    rw [Nat.pow_succ, ← Nat.mul_assoc, ofDecimal_shift, ih]
    congr 1
    omega

/-- The sign of a decimal number has no part in its size. -/
theorem ofDecimal_negative {digits : Nat} {e : Int} {x : Magnitude}
    (h : ofDecimal false digits e = .finite false x) (negative : Bool) :
    ofDecimal negative digits e = .finite negative x := by
  by_cases hzero : digits = 0
  · rw [hzero, ofDecimal_zero] at h ⊢
    cases h
    rfl
  · rw [ofDecimal_eq _ hzero] at h ⊢
    exact ofQuotient_negative h negative

end Binary64

namespace Decimal

theorem Scaled.reads_iff {d : Scaled} {x : Magnitude} :
    d.reads x = true ↔ Binary64.ofDecimal false d.digits d.exponent = .finite false x := by
  rw [reads, beq_iff_eq]

theorem eq_zero_of_mul_pow_five {u : Nat} (n : Nat) (h : u * Nat.pow 5 n = 0) : u = 0 :=
  (Nat.mul_eq_zero.mp h).resolve_right (Nat.pos_iff_ne_zero.mp (Nat.pow_pos (Nat.succ_pos 4)))

/-- The units of a size over one, as a quotient that has a power of ten below. -/
theorem ofQuotient_exact (x : Magnitude) {n one : Nat} (hone : one = 2 ^ n) :
    Binary64.ofQuotient false (x.units * Nat.pow 5 n * one) (10 ^ n) = .finite false x := by
  have hnum : x.units * Nat.pow 5 n * one = x.units * 10 ^ n := by
    rw [hone, Nat.pow_eq, Nat.mul_assoc, ← Nat.mul_pow]
  have hscale := Binary64.ofQuotient_scale false x.units 1 (Nat.pow_pos (by omega) : 0 < 10 ^ n)
  rw [Nat.one_mul, Binary64.ofQuotient_some (Magnitude.ofQuotient?_units x)] at hscale
  rw [hnum, hscale]

/-- The exact value of a size reads back: it is the size in units, with its point moved to where a
unit has its last decimal place. -/
theorem exact_reads (x : Magnitude) : (exact x).reads x = true := by
  have hone : Magnitude.unitsPerOne = 2 ^ 1074 := Nat.one_shiftLeft 1074
  have hup : (-1074 : Int).toNat = 0 := rfl
  have hdown : (-(-1074) : Int).toNat = 1074 := rfl
  rw [Scaled.reads_iff, exact]
  by_cases hzero : x.units * Nat.pow 5 1074 = 0
  · have hunits : x.units = 0 := eq_zero_of_mul_pow_five 1074 hzero
    have hx : some x = some Magnitude.zero := by
      rw [← Magnitude.ofQuotient?_units, hunits]
      exact Magnitude.ofQuotient?_tiny (by decide)
    rw [hzero, Binary64.ofDecimal_zero, Option.some.inj hx]
  · rw [Binary64.ofDecimal_eq _ hzero, hup, hdown, Nat.pow_zero, Nat.mul_one]
    exact ofQuotient_exact x hone

theorem choose_reads {x : Magnitude} {low high d : Scaled} {lowFirst : Bool}
    (h : choose x low high lowFirst = some d) : d.reads x = true := by
  unfold choose at h
  split at h
  · rename_i hlow hhigh
    cases h
    cases lowFirst with
    | true => exact hlow
    | false => exact hhigh
  · rename_i hlow _
    cases h
    exact hlow
  · rename_i _ hhigh
    cases h
    exact hhigh
  · cases h

/-- What is found by counting down has what every trial and the last resort have. -/
theorem firstBelow_of {α : Type} (good : α → Prop) {trial : Nat → Option α} {last : α}
    (htrial : ∀ n a, trial n = some a → good a) (hlast : good last) (n : Nat) :
    good (firstBelow trial last n) := by
  induction n with
  | zero => exact hlast
  | succ n ih =>
    rw [firstBelow]
    split
    · rename_i a ha
      exact htrial n a ha
    · exact ih

theorem search_reads (x : Magnitude) (cut : Nat) : (search x cut).reads x = true :=
  firstBelow_of (·.reads x = true) (fun _ _ hd => choose_reads hd) (exact_reads x) cut

theorem Scaled.dropZeros_reads {x : Magnitude} (fuel : Nat) {d : Scaled} (h : d.reads x = true) :
    (dropZeros fuel d).reads x = true := by
  induction fuel generalizing d with
  | zero => exact h
  | succ fuel ih =>
    rw [dropZeros]
    split
    · rename_i hzero
      refine ih ?_
      rw [reads_iff] at h ⊢
      rw [← h, ← Binary64.ofDecimal_shift, Nat.div_mul_cancel (Nat.dvd_of_mod_eq_zero hzero.2)]
    · exact h

/-- What is written for a size reads back as the size. -/
theorem shortest_reads (x : Magnitude) : (shortest x).reads x = true :=
  Scaled.dropZeros_reads _ (search_reads x _)

end Decimal

end Sluice
