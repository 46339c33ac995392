import Sluice.Json.Reader
import Sluice.Json.Writer
import Sluice.Proofs.Decimal.Rounding

/-!
Numbers as JSON text. The writer lays the shortest digits of a number out with a point or an exponent
somewhere; the reader takes all digits before and after the point as one whole number and shifts it,
so every layout of the same digits is read as the same number.
-/

namespace Sluice.Json

theorem isDigit_eq (c : Char) : isDigit c = c.isDigit := by
  rw [Bool.eq_iff_iff]
  simp [isDigit, Char.isDigit, Char.le_def]

theorem digitsValue_eq (cs : List Char) : digitsValue cs = Nat.ofDigitChars 10 cs 0 := by
  simp [digitsValue, Text.ofDigits, Nat.ofDigitChars_eq_foldl, List.foldl_map]

theorem digitsValue_digitsOf (n : Nat) : digitsValue (Decimal.digitsOf n) = n := by
  rw [digitsValue_eq, Decimal.digitsOf, Nat.ofDigitChars_toDigits (by omega) (by omega)]

theorem digitsValue_zeros_append (k : Nat) (cs : List Char) :
    digitsValue (List.replicate k '0' ++ cs) = digitsValue cs := by
  rw [digitsValue_eq, digitsValue_eq, Nat.ofDigitChars_append, Nat.ofDigitChars_replicate_zero,
    Nat.mul_zero]

theorem digitsValue_append_zeros (cs : List Char) (k : Nat) :
    digitsValue (cs ++ List.replicate k '0') = digitsValue cs * 10 ^ k := by
  rw [digitsValue_eq, digitsValue_eq, Nat.ofDigitChars_append, Nat.ofDigitChars_replicate_zero,
    Nat.mul_comm]

def Digits (cs : List Char) : Prop :=
  ∀ c ∈ cs, isDigit c = true

theorem digits_digitsOf (n : Nat) : Digits (Decimal.digitsOf n) := by
  intro c hc
  rw [isDigit_eq]
  exact Nat.isDigit_of_mem_toDigits (by omega) (by omega) hc

theorem digits_zeros (k : Nat) : Digits (List.replicate k '0') := by
  intro c hc
  rw [List.eq_of_mem_replicate hc]
  decide

theorem Digits.append {cs ds : List Char} (hcs : Digits cs) (hds : Digits ds) :
    Digits (cs ++ ds) := by
  intro c hc
  rcases List.mem_append.mp hc with h | h
  · exact hcs c h
  · exact hds c h

theorem Digits.take {cs : List Char} (h : Digits cs) (n : Nat) : Digits (cs.take n) :=
  fun c hc => h c (List.mem_of_mem_take hc)

theorem Digits.drop {cs : List Char} (h : Digits cs) (n : Nat) : Digits (cs.drop n) :=
  fun c hc => h c (List.mem_of_mem_drop hc)

def NoDigit (rest : List Char) : Prop :=
  ∀ c ∈ rest.head?, isDigit c = false

def NoNumber (rest : List Char) : Prop :=
  ∀ c ∈ rest.head?, isDigit c = false ∧ c ≠ '.' ∧ c ≠ 'e' ∧ c ≠ 'E'

theorem NoNumber.noDigit {rest : List Char} (h : NoNumber rest) : NoDigit rest :=
  fun c hc => (h c hc).1

theorem takeWhile_digits {cs rest : List Char} (hcs : Digits cs) (hrest : NoDigit rest) :
    (cs ++ rest).takeWhile isDigit = cs := by
  rw [List.takeWhile_append_of_pos hcs]
  cases rest with
  | nil => simp
  | cons c rest => simp [hrest c (by simp)]

theorem dropWhile_digits {cs rest : List Char} (hcs : Digits cs) (hrest : NoDigit rest) :
    (cs ++ rest).dropWhile isDigit = rest := by
  rw [List.dropWhile_append_of_pos hcs]
  cases rest with
  | nil => rfl
  | cons c rest => simp [hrest c (by simp)]

/-- The whole part of a number: a zero alone, or digits that do not start with one. -/
inductive IsWhole : List Char → Prop where
  | zero : IsWhole ['0']
  | digits {d : Char} {ds : List Char} (hd : isDigit d = true) (hne : d ≠ '0') (hds : Digits ds) :
      IsWhole (d :: ds)

theorem IsWhole.read {whole rest : List Char} (h : IsWhole whole) (hrest : NoDigit rest) :
    readWhole (whole ++ rest) = some (whole, rest) := by
  cases h with
  | zero => rfl
  | @digits d ds hd hne hds =>
    rw [List.cons_append, readWhole.eq_def]
    split
    · rename_i heq
      cases heq
      exact absurd rfl hne
    · rename_i heq
      cases heq
      rw [if_pos hd, takeWhile_digits hds hrest, dropWhile_digits hds hrest]
    · rename_i heq
      cases heq

/-- A number begins with a digit. -/
theorem IsWhole.cons {whole : List Char} (h : IsWhole whole) :
    ∃ d ds, whole = d :: ds ∧ isDigit d = true := by
  cases h with
  | zero => exact ⟨'0', [], rfl, by decide⟩
  | digits hd _ _ => exact ⟨_, _, rfl, hd⟩

theorem isWhole_digitsOf (n : Nat) : IsWhole (Decimal.digitsOf n) := by
  rcases Nat.eq_zero_or_pos n with rfl | hpos
  · exact .zero
  · have hhead (m : Nat) (hm : 0 < m) : ∃ d ds, Decimal.digitsOf m = d :: ds ∧ d ≠ '0' := by
      induction m using Nat.strongRecOn with
      | ind m ih =>
        rw [Decimal.digitsOf, Nat.toDigits_eq_if (by omega)]
        split
        · exact ⟨_, _, rfl, by simpa using Nat.pos_iff_ne_zero.mp hm⟩
        · obtain ⟨d, ds, hds, hne⟩ := ih (m / 10) (by omega) (by omega)
          rw [Decimal.digitsOf] at hds
          exact ⟨d, _, by rw [hds, List.cons_append], hne⟩
    obtain ⟨d, ds, hds, hne⟩ := hhead n hpos
    have hall := digits_digitsOf n
    rw [hds] at hall ⊢
    exact .digits (hall d (by simp)) hne fun c hc => hall c (by simp [hc])

theorem IsWhole.append {whole cs : List Char} (h : IsWhole whole) (hzero : whole ≠ ['0'])
    (hcs : Digits cs) : IsWhole (whole ++ cs) := by
  cases h with
  | zero => exact absurd rfl hzero
  | digits hd hne hds => exact .digits hd hne (hds.append hcs)

theorem IsWhole.take {whole : List Char} (h : IsWhole whole) {n : Nat} (hn : n ≠ 0) :
    IsWhole (whole.take n) := by
  obtain ⟨n, rfl⟩ := Nat.exists_eq_succ_of_ne_zero hn
  cases h with
  | zero => rw [List.take_succ_cons, List.take_nil]; exact .zero
  | digits hd hne hds => exact .digits hd hne (hds.take n)

theorem readFraction_none {rest : List Char} (h : ∀ c ∈ rest.head?, c ≠ '.') :
    readFraction rest = ([], rest) := by
  unfold readFraction
  split
  · exact absurd rfl (h '.' (by simp))
  · rfl

theorem readFraction_point {cs rest : List Char} (hne : cs ≠ []) (hcs : Digits cs)
    (hrest : NoDigit rest) : readFraction ('.' :: cs ++ rest) = (cs, rest) := by
  obtain ⟨d, ds, rfl⟩ := List.exists_cons_of_ne_nil hne
  have hds : Digits ds := fun c hc => hcs c (by simp [hc])
  rw [List.cons_append, List.cons_append, readFraction, if_pos (hcs d (by simp)),
    takeWhile_digits hds hrest, dropWhile_digits hds hrest]

theorem readExponent_none {rest : List Char} (h : NoNumber rest) : readExponent rest = none := by
  cases rest with
  | nil => rfl
  | cons c rest =>
    obtain ⟨-, -, he, hE⟩ := h c (by simp)
    rw [readExponent.eq_def]
    simp [he, hE]

theorem readExponentDigits_append {cs rest : List Char} (hne : cs ≠ []) (hcs : Digits cs)
    (hrest : NoDigit rest) :
    readExponentDigits (cs ++ rest) = some (digitsValue cs, rest) := by
  rw [readExponentDigits, takeWhile_digits hcs hrest, dropWhile_digits hcs hrest]
  simp [hne]

theorem digits_zeroFilled (width n : Nat) :
    Digits (Decimal.zeroFilled width (Decimal.digitsOf n)) :=
  (digits_zeros _).append (digits_digitsOf n)

theorem zeroFilled_ne_nil (width n : Nat) :
    Decimal.zeroFilled width (Decimal.digitsOf n) ≠ [] := by
  simp [Decimal.zeroFilled, Decimal.digitsOf]

/-- An exponent that is written, with zeros in front or not, is read. -/
theorem readExponent_exponent (f : Decimal.Notation) (e : Int) {rest : List Char}
    (hrest : NoDigit rest) : readExponent (f.exponent e ++ rest) = some (e, rest) := by
  have hdigits (n : Nat) :
      readExponentDigits (Decimal.zeroFilled f.exponentWidth (Decimal.digitsOf n) ++ rest) =
        some (n, rest) := by
    rw [readExponentDigits_append (zeroFilled_ne_nil _ n) (digits_zeroFilled _ n) hrest,
      Decimal.zeroFilled, digitsValue_zeros_append, digitsValue_digitsOf]
  cases e with
  | ofNat n =>
    cases hplus : f.plusSign with
    | true => simp [Decimal.Notation.exponent, hplus, readExponent, hdigits]
    | false =>
      -- the first digit is no sign
      obtain ⟨d, ds, hds⟩ := List.exists_cons_of_ne_nil (zeroFilled_ne_nil f.exponentWidth n)
      have hd : isDigit d = true := digits_zeroFilled f.exponentWidth n d (by simp [hds])
      have h := hdigits n
      rw [hds] at h
      simp only [Decimal.Notation.exponent, hplus, hds, readExponent, List.cons_append,
        List.nil_append, Bool.false_eq_true, ↓reduceIte, true_or]
      split
      · rename_i heq
        cases heq
        exact absurd hd (by decide)
      · rename_i heq
        cases heq
        exact absurd hd (by decide)
      · rw [List.cons_append] at h
        rw [h]
        rfl
  | negSucc n =>
    simp [Decimal.Notation.exponent, readExponent, hdigits, Int.negSucc_eq]

def signed (negative : Bool) (cs : List Char) : List Char :=
  if negative then '-' :: cs else cs

theorem signed_append (negative : Bool) (cs rest : List Char) :
    signed negative cs ++ rest = signed negative (cs ++ rest) := by
  cases negative <;> rfl

theorem write_finite (f : Decimal.Notation) (negative : Bool) (x : Magnitude) :
    f.write (.finite negative x) = signed negative (f.size x) := by
  cases negative with
  | true => rw [Decimal.Notation.write, signed, if_pos rfl]
  | false => rw [Decimal.Notation.write, signed, if_neg Bool.false_ne_true]

theorem readNumber_signed (negative : Bool) {d : Char} (hd : isDigit d = true) (cs : List Char) :
    readNumber (signed negative (d :: cs)) = readUnsigned negative (d :: cs) := by
  cases negative with
  | true => rfl
  | false =>
    rw [signed, if_neg (by simp), readNumber.eq_def]
    split
    · rename_i heq
      cases heq
      exact absurd hd (by decide)
    · rfl

/-- A whole number is read with its sign, unless it has too many digits. -/
theorem readNumber_digits (negative : Bool) {whole rest : List Char} (hwhole : IsWhole whole)
    (hrest : NoNumber rest) :
    readNumber (signed negative (whole ++ rest)) =
      if Text.maxDigits < whole.length then .error (.longNumber whole.length)
      else .ok (.int (if negative then -(digitsValue whole : Int) else digitsValue whole), rest) := by
  have hread := hwhole.read hrest.noDigit
  obtain ⟨d, ds, rfl, hd⟩ := hwhole.cons
  rw [List.cons_append] at hread ⊢
  rw [readNumber_signed negative hd, readUnsigned, hread]
  have hpoint : ∀ c ∈ rest.head?, c ≠ '.' := fun c hc => (hrest c hc).2.1
  simp only [readFraction_none hpoint, readExponent_none hrest, List.isEmpty_nil, Bool.not_true,
    Bool.false_eq_true, ↓reduceIte]

theorem readNumber_whole (negative : Bool) {whole rest : List Char} (hwhole : IsWhole whole)
    (hlength : whole.length ≤ Text.maxDigits) (hrest : NoNumber rest) :
    readNumber (signed negative (whole ++ rest)) =
      .ok (.int (if negative then -(digitsValue whole : Int) else digitsValue whole), rest) := by
  rw [readNumber_digits negative hwhole hrest, if_neg (Nat.not_lt.mpr hlength)]

/-- A number with a point is read by its digits. -/
theorem readNumber_point (negative : Bool) {whole fraction rest : List Char}
    (hwhole : IsWhole whole) (hne : fraction ≠ []) (hfraction : Digits fraction)
    (hrest : NoNumber rest) :
    readNumber (signed negative (whole ++ '.' :: fraction ++ rest)) =
      .ok (.float (.ofDecimal negative (digitsValue (whole ++ fraction)) (0 - fraction.length)),
        rest) := by
  have hread : readWhole (whole ++ ('.' :: fraction ++ rest)) = _ :=
    hwhole.read (by simp [NoDigit, isDigit])
  obtain ⟨d, ds, rfl, hd⟩ := hwhole.cons
  rw [List.append_assoc, List.cons_append] at *
  rw [readNumber_signed negative hd, readUnsigned, hread]
  simp only [readFraction_point hne hfraction hrest.noDigit, readExponent_none hrest]
  simp [hne]

/-- A number with an exponent is read by its digits, those after a point moving the exponent. -/
theorem readNumber_exponent (negative : Bool) (f : Decimal.Notation) (e : Int)
    {whole fraction rest : List Char} (hwhole : IsWhole whole) (hfraction : Digits fraction)
    (hrest : NoDigit rest) :
    readNumber (signed negative
        (whole ++ (if fraction = [] then [] else '.' :: fraction) ++ f.exponent e ++ rest)) =
      .ok (.float (.ofDecimal negative (digitsValue (whole ++ fraction)) (e - fraction.length)),
        rest) := by
  have hmark : ∀ c ∈ (f.exponent e ++ rest).head?, isDigit c = false ∧ c ≠ '.' := by
    cases e <;> simp [Decimal.Notation.exponent, isDigit]
  have hmarkDigit : NoDigit (f.exponent e ++ rest) := fun c hc => (hmark c hc).1
  have htail : readFraction ((if fraction = [] then [] else '.' :: fraction) ++
      (f.exponent e ++ rest)) = (fraction, f.exponent e ++ rest) := by
    split
    · rename_i hnil
      rw [hnil, List.nil_append]
      exact readFraction_none fun c hc => (hmark c hc).2
    · rename_i hne
      exact readFraction_point hne hfraction hmarkDigit
  have hstop : NoDigit ((if fraction = [] then [] else '.' :: fraction) ++
      (f.exponent e ++ rest)) := by
    split
    · exact hmarkDigit
    · simp [NoDigit, isDigit]
  have hread := hwhole.read hstop
  obtain ⟨d, ds, rfl, hd⟩ := hwhole.cons
  rw [List.append_assoc, List.append_assoc]
  rw [List.cons_append] at hread ⊢
  rw [readNumber_signed negative hd, readUnsigned, hread]
  simp only [htail, readExponent_exponent f e hrest]

/-- Digits in plain places are read as themselves, the point where it was put. -/
theorem readNumber_plain (negative : Bool) {n : Nat} (hn : n ≠ 0) (place : Int) {rest : List Char}
    (hrest : NoNumber rest) :
    readNumber (signed negative (Decimal.plain (Decimal.digitsOf n) place ++ rest)) =
      .ok (.float (.ofDecimal negative n (place - (Decimal.digitsOf n).length)), rest) := by
  have hdigits := digits_digitsOf n
  have hvalue := digitsValue_digitsOf n
  have hwhole := isWhole_digitsOf n
  have hnil : Decimal.digitsOf n ≠ [] := Nat.toDigits_ne_nil
  have hzero : Decimal.digitsOf n ≠ ['0'] := fun h => hn (by rw [← hvalue, h]; rfl)
  generalize Decimal.digitsOf n = digits at *
  match place with
  | .ofNat 0 =>
    have h := readNumber_point negative .zero hnil hdigits hrest
    have hsame : digitsValue (['0'] ++ digits) = n := by
      rw [← hvalue]
      exact digitsValue_zeros_append 1 digits
    rw [hsame] at h
    exact h
  | .ofNat (k + 1) =>
    rw [Decimal.plain.eq_2 _ _ (Nat.succ_ne_zero k)]
    by_cases hshort : digits.length ≤ k + 1
    · have htake : digits.take (k + 1) = digits := List.take_of_length_le hshort
      have hdrop : digits.drop (k + 1) = [] := List.drop_eq_nil_of_le hshort
      simp only [htake, hdrop, List.isEmpty_nil, ↓reduceIte]
      have hlong := hwhole.append hzero (digits_zeros (k + 1 - digits.length))
      have h := readNumber_point negative hlong (List.cons_ne_nil '0' []) (digits_zeros 1) hrest
      have hzeros : digits ++ List.replicate (k + 1 - digits.length) '0' ++ ['0'] =
          digits ++ List.replicate (k + 1 - digits.length + 1) '0' := by
        rw [List.append_assoc, List.replicate_succ']
      rw [h, hzeros, digitsValue_append_zeros, hvalue, Binary64.ofDecimal_zeros]
      simp only [List.length_singleton, Int.ofNat_eq_natCast]
      congr 4
      omega
    · have hlt : k + 1 < digits.length := Nat.lt_of_not_le hshort
      have htake : (digits.take (k + 1)).length = k + 1 := by
        rw [List.length_take, Nat.min_eq_left (Nat.le_of_lt hlt)]
      have hdrop : digits.drop (k + 1) ≠ [] := by
        simpa using hlt
      have hempty : (digits.drop (k + 1)).isEmpty = false := by simpa using hlt
      have hfirst : IsWhole (digits.take (k + 1)) := hwhole.take (Nat.succ_ne_zero k)
      simp only [htake, Nat.sub_self, List.replicate_zero, List.append_nil, hempty,
        Bool.false_eq_true, ↓reduceIte]
      have h := readNumber_point negative hfirst hdrop (hdigits.drop (k + 1)) hrest
      rw [h, List.take_append_drop, hvalue, List.length_drop]
      congr 4
      simp only [Int.ofNat_eq_natCast]
      omega
  | .negSucc m =>
    have hne : List.replicate (m + 1) '0' ++ digits ≠ [] := by simp
    have h := readNumber_point negative .zero hne ((digits_zeros _).append hdigits) hrest
    have hsame : digitsValue (['0'] ++ (List.replicate (m + 1) '0' ++ digits)) = n := by
      rw [← hvalue, ← digitsValue_zeros_append (m + 1) digits]
      exact digitsValue_zeros_append 1 _
    rw [hsame] at h
    refine h.trans ?_
    congr 4
    simp only [List.length_append, List.length_replicate, Int.negSucc_eq]
    omega

/-- Digits with an exponent are read as themselves, the point behind the first of them. -/
theorem readNumber_scientific (negative : Bool) (f : Decimal.Notation) (n : Nat) (e : Int)
    {rest : List Char} (hrest : NoDigit rest) :
    readNumber (signed negative (f.scientific (Decimal.digitsOf n) e ++ rest)) =
      .ok (.float (.ofDecimal negative n (e - ((Decimal.digitsOf n).length - 1))), rest) := by
  have hdigits := digits_digitsOf n
  have hvalue := digitsValue_digitsOf n
  have hwhole := (isWhole_digitsOf n).take (Nat.succ_ne_zero 0)
  have hnil : Decimal.digitsOf n ≠ [] := Nat.toDigits_ne_nil
  generalize Decimal.digitsOf n = digits at *
  match digits, hnil with
  | [d], _ =>
    have h := readNumber_exponent negative f e hwhole (show Digits [] by simp [Digits]) hrest
    rw [List.append_nil, List.take_succ_cons, List.take_zero, hvalue] at h
    simpa [Decimal.Notation.scientific] using h
  | d :: d' :: ds, _ =>
    have hfraction : Digits (d' :: ds) := fun c hc => hdigits c (by simp [hc])
    have h := readNumber_exponent negative f e hwhole hfraction hrest
    simp only [List.take_succ_cons, List.take_zero, List.singleton_append, hvalue] at h
    simpa [Decimal.Notation.scientific] using h

/-- What is written for a finite number is read as that number. -/
theorem readNumber_size (negative : Bool) (f : Decimal.Notation) (x : Magnitude) {rest : List Char}
    (hrest : NoNumber rest) :
    readNumber (signed negative (f.size x ++ rest)) = .ok (.float (.finite negative x), rest) := by
  have hreads := Binary64.ofDecimal_negative (Decimal.Scaled.reads_iff.mp (Decimal.shortest_reads x))
    negative
  generalize hd : Decimal.shortest x = d at hreads
  simp only [Decimal.Notation.size, hd]
  split
  · rename_i hzero
    have h := readNumber_point negative .zero (List.cons_ne_nil '0' []) (digits_zeros 1) hrest
    rw [hzero, Binary64.ofDecimal_zero] at hreads
    rw [← hreads]
    exact h
  · rename_i hne
    split
    · rw [readNumber_plain negative hne _ hrest, ← hreads]
      congr 4
      omega
    · rw [readNumber_scientific negative f d.digits _ hrest.noDigit, ← hreads]
      congr 4
      omega

/-- A whole number that is written is read, if it does not have too many digits. -/
theorem readNumber_writeInt (n : Int) {rest : List Char}
    (hlength : (Decimal.digitsOf n.natAbs).length ≤ Text.maxDigits) (hrest : NoNumber rest) :
    readNumber (writeInt n ++ rest) = .ok (.int n, rest) := by
  cases n with
  | ofNat n =>
    have h := readNumber_whole false (isWhole_digitsOf n) hlength hrest
    rw [digitsValue_digitsOf] at h
    exact h
  | negSucc n =>
    have h := readNumber_whole true (isWhole_digitsOf (n + 1)) hlength hrest
    rw [digitsValue_digitsOf] at h
    exact h

/-- A text that begins with a number: a digit, perhaps after a minus sign. -/
def Numeric (cs : List Char) : Prop :=
  ∃ negative d ds, cs = signed negative (d :: ds) ∧ isDigit d = true

theorem numeric_writeInt (n : Int) : Numeric (writeInt n) := by
  cases n with
  | ofNat n =>
    obtain ⟨d, ds, hds, hd⟩ := (isWhole_digitsOf n).cons
    exact ⟨false, d, ds, hds, hd⟩
  | negSucc n =>
    obtain ⟨d, ds, hds, hd⟩ := (isWhole_digitsOf (n + 1)).cons
    exact ⟨true, d, ds, by rw [writeInt, hds]; rfl, hd⟩

theorem size_cons (f : Decimal.Notation) (x : Magnitude) :
    ∃ d ds, f.size x = d :: ds ∧ isDigit d = true := by
  obtain ⟨d, ds, hds, hd⟩ := (isWhole_digitsOf (Decimal.shortest x).digits).cons
  simp only [Decimal.Notation.size]
  split
  · exact ⟨'0', ['.', '0'], rfl, by decide⟩
  · split
    · rw [hds, Decimal.plain.eq_def]
      split
      · exact ⟨'0', _, rfl, by decide⟩
      · rename_i n hn _
        obtain ⟨n, rfl⟩ := Nat.exists_eq_succ_of_ne_zero (fun h => hn h)
        exact ⟨d, _, rfl, hd⟩
      · exact ⟨'0', _, rfl, by decide⟩
    · rw [hds]
      cases ds with
      | nil => exact ⟨d, _, rfl, hd⟩
      | cons d' ds => exact ⟨d, _, rfl, hd⟩

theorem numeric_size (negative : Bool) (f : Decimal.Notation) (x : Magnitude) :
    Numeric (signed negative (f.size x)) := by
  obtain ⟨d, ds, hds, hd⟩ := size_cons f x
  exact ⟨negative, d, ds, by rw [hds], hd⟩

theorem Numeric.append {cs : List Char} (h : Numeric cs) (rest : List Char) :
    Numeric (cs ++ rest) := by
  obtain ⟨negative, d, ds, rfl, hd⟩ := h
  exact ⟨negative, d, ds ++ rest, by rw [signed_append, List.cons_append], hd⟩

/-- No word begins like a number. -/
theorem Numeric.readWord? {cs : List Char} (h : Numeric cs) : readWord? cs = none := by
  obtain ⟨negative, d, ds, rfl, hd⟩ := h
  have hne (c : Char) (hc : isDigit c = false) : c ≠ d := by
    rintro rfl
    rw [hd] at hc
    cases hc
  cases negative with
  | true =>
    simp [Json.readWord?, words, signed, hne 'I' (by decide)]
  | false =>
    simp [Json.readWord?, words, signed, hne 'n' (by decide), hne 't' (by decide),
      hne 'f' (by decide), hne 'N' (by decide), hne 'I' (by decide), hne '-' (by decide)]

/-- A value that begins like a number is read as a number. -/
theorem Numeric.readValue {cs : List Char} (h : Numeric cs) (fuel : Nat) :
    readValue (fuel + 1) cs = readNumber cs := by
  have hword := h.readWord?
  obtain ⟨negative, d, ds, rfl, hd⟩ := h
  rw [Json.readValue.eq_def]
  simp only
  split
  · rename_i heq
    cases negative <;> cases heq
    exact absurd hd (by decide)
  · rename_i heq
    cases negative <;> cases heq
    exact absurd hd (by decide)
  · rename_i heq
    cases negative <;> cases heq
    exact absurd hd (by decide)
  · rw [hword]

end Sluice.Json
