import Sluice.Text.Base64
import Sluice.Text.Hex
import Sluice.Text.Utf8

/-!
Texts as bytes and bytes as texts: what is encoded in UTF-8 or in base64 is decoded as it was, for
every text and every sequence of bytes. A character of several bytes is followed byte by byte through
the states of the decoder; base64 goes by groups of three bytes, with one or two left over. Texts of
hexadecimal digits are never decoded, but different bytes have different ones.
-/

namespace Sluice

namespace Utf8

theorem toNat_byte {n : Nat} (h : n < 256) : (UInt8.ofNat n).toNat = n :=
  UInt8.toNat_ofNat_of_lt h

theorem scan_firstByte {n : Nat} {out : List (Option Char)} {next : Option Begun}
    (h : firstByte (UInt8.ofNat n) = (out, next)) (rest : List UInt8) :
    scan none (UInt8.ofNat n :: rest) = out ++ scan next rest := by
  rw [scan, step, h]

/-- A byte between the bounds that is not the last of a character. -/
theorem scan_more {p : Begun} {n : Nat} (hbyte : n < 256) (hlow : p.low ≤ n) (hhigh : n ≤ p.high)
    (howed : p.owed ≠ 1) (rest : List UInt8) :
    scan (some p) (UInt8.ofNat n :: rest) =
      scan (some ⟨p.owed - 1, 0x80, 0xbf, p.value * 64 + (n - 0x80)⟩) rest := by
  rw [scan, step, toNat_byte hbyte, if_pos ⟨hlow, hhigh⟩, if_neg howed]
  rfl

/-- A byte between the bounds that is the last of a character. -/
theorem scan_last {p : Begun} {n : Nat} {c : Char} (hbyte : n < 256) (hlow : p.low ≤ n)
    (hhigh : n ≤ p.high) (howed : p.owed = 1) (hc : p.value * 64 + (n - 0x80) = c.toNat)
    (rest : List UInt8) :
    scan (some p) (UInt8.ofNat n :: rest) = some c :: scan none rest := by
  rw [scan, step, toNat_byte hbyte, if_pos ⟨hlow, hhigh⟩]
  simp only [howed, ↓reduceIte, hc, Char.ofNat_toNat]
  rfl

theorem scan_encodeChar (c : Char) (rest : List UInt8) :
    scan none (encodeChar c ++ rest) = some c :: scan none rest := by
  have hvalid : c.toNat < 0xd800 ∨ 0xdfff < c.toNat ∧ c.toNat < 0x110000 := c.valid
  simp only [encodeChar]
  split
  · rename_i h1
    have hfirst : firstByte (UInt8.ofNat c.toNat) = ([some c], none) := by
      rw [firstByte, toNat_byte (by omega), if_pos h1, Char.ofNat_toNat]
    exact scan_firstByte hfirst rest
  split
  · rename_i h1 h2
    have hfirst : firstByte (UInt8.ofNat (0xc0 + c.toNat / 64)) =
        ([], some ⟨1, 0x80, 0xbf, c.toNat / 64⟩) := by
      simp only [firstByte, toNat_byte (show 0xc0 + c.toNat / 64 < 256 by omega)]
      rw [if_neg (by omega), if_neg (by omega), if_pos (by omega), Nat.add_sub_cancel_left]
    rw [List.cons_append, scan_firstByte hfirst]
    exact scan_last (by omega) (by simp) (by simp; omega) rfl (by simp; omega) rest
  split
  · rename_i h1 h2 h3
    have hfirst : firstByte (UInt8.ofNat (0xe0 + c.toNat / 4096)) =
        ([], some ⟨2, if c.toNat / 4096 = 0 then 0xa0 else 0x80,
          if c.toNat / 4096 = 13 then 0x9f else 0xbf, c.toNat / 4096⟩) := by
      simp only [firstByte, toNat_byte (show 0xe0 + c.toNat / 4096 < 256 by omega)]
      rw [if_neg (by omega), if_neg (by omega), if_neg (by omega), if_pos (by omega),
        Nat.add_sub_cancel_left]
      simp only [show (0xe0 + c.toNat / 4096 = 0xe0) = (c.toNat / 4096 = 0) by simp,
        show (0xe0 + c.toNat / 4096 = 0xed) = (c.toNat / 4096 = 13) by simp; omega]
    rw [List.cons_append, scan_firstByte hfirst, List.nil_append, List.cons_append, scan_more]
    · exact scan_last (by omega) (by simp) (by simp; omega) rfl (by simp; omega) rest
    · omega
    · simp only
      split <;> omega
    · simp only
      split <;> omega
    · simp
  · rename_i h1 h2 h3
    have hfirst : firstByte (UInt8.ofNat (0xf0 + c.toNat / 262144)) =
        ([], some ⟨3, if c.toNat / 262144 = 0 then 0x90 else 0x80,
          if c.toNat / 262144 = 4 then 0x8f else 0xbf, c.toNat / 262144⟩) := by
      simp only [firstByte, toNat_byte (show 0xf0 + c.toNat / 262144 < 256 by omega)]
      rw [if_neg (by omega), if_neg (by omega), if_neg (by omega), if_neg (by omega),
        if_pos (by omega), Nat.add_sub_cancel_left]
      simp only [show (0xf0 + c.toNat / 262144 = 0xf0) = (c.toNat / 262144 = 0) by simp,
        show (0xf0 + c.toNat / 262144 = 0xf4) = (c.toNat / 262144 = 4) by simp; omega]
    rw [List.cons_append, scan_firstByte hfirst, List.nil_append, List.cons_append, scan_more,
      List.cons_append, scan_more]
    · exact scan_last (by omega) (by simp) (by simp; omega) rfl (by simp; omega) rest
    · omega
    · simp
    · simp
      omega
    · simp
    · omega
    · simp only
      split <;> omega
    · simp only
      split <;> omega
    · simp

theorem scan_encode (cs : List Char) : scan none (encode cs) = cs.map some := by
  induction cs with
  | nil => rfl
  | cons c cs ih =>
    rw [encode, List.flatMap_cons, scan_encodeChar, ← encode, ih, List.map_cons]

theorem decode_encode (cs : List Char) : decode? (encode cs) = some cs := by
  rw [decode?, scan_encode]
  induction cs with
  | nil => rfl
  | cons c cs ih => simp [List.mapM_cons, ih]

/-- Reading that forgives what is no text has nothing to forgive here. -/
theorem decodeLossy_encode (cs : List Char) : decodeLossy (encode cs) = cs := by
  rw [decodeLossy, scan_encode, List.map_map]
  exact List.map_id cs

theorem encode_ne_nil {cs : List Char} (h : cs ≠ []) : encode cs ≠ [] := by
  intro hnil
  have := decode_encode cs
  rw [hnil] at this
  exact h (Option.some.inj this).symm

end Utf8

namespace Base64

theorem digitValue?_digit {n : Nat} (h : n < 64) : digitValue? (digit n) = some n := by
  have hall : ∀ d < 64, digitValue? (digit d) = some d := by decide
  exact hall n h

theorem digit_ne_pad {n : Nat} (h : n < 64) : digit n ≠ '=' := by
  have hall : ∀ d < 64, digit d ≠ '=' := by decide
  exact hall n h

/-- What one digit does to a group. -/
theorem read_digit (g : Group) {n : Nat} (h : n < 64) (rest : List Char) :
    read g (digit n :: rest) =
      match g with
      | .empty => read (.one n) rest
      | .one bits => (read (.two (n % 16) false) rest).map (UInt8.ofNat (bits * 4 + n / 16) :: ·)
      | .two bits _ => (read (.three (n % 4)) rest).map (UInt8.ofNat (bits * 16 + n / 4) :: ·)
      | .three bits => (read .empty rest).map (UInt8.ofNat (bits * 64 + n) :: ·) := by
  rw [read.eq_def]
  cases g <;> simp [digit_ne_pad h, digitValue?_digit h]

/-- The first two digits of a group give its first byte and keep what the second one has left. -/
theorem read_first (a : UInt8) {n : Nat} (h : n < 16) (rest : List Char) :
    read .empty (digit (a.toNat / 4) :: digit (a.toNat % 4 * 16 + n) :: rest) =
      (read (.two n false) rest).map (a :: ·) := by
  have ha := a.toNat_lt
  have hbyte : a.toNat / 4 * 4 + (a.toNat % 4 * 16 + n) / 16 = a.toNat := by omega
  have hleft : (a.toNat % 4 * 16 + n) % 16 = n := by omega
  rw [read_digit _ (by omega)]
  simp only [read_digit _ (show a.toNat % 4 * 16 + n < 64 by omega), hbyte, hleft,
    UInt8.ofNat_toNat]

/-- The third digit of a group gives its second byte. -/
theorem read_second (b : UInt8) (padded : Bool) {n : Nat} (h : n < 4) (rest : List Char) :
    read (.two (b.toNat / 16) padded) (digit (b.toNat % 16 * 4 + n) :: rest) =
      (read (.three n) rest).map (b :: ·) := by
  have hb := b.toNat_lt
  have hbyte : b.toNat / 16 * 16 + (b.toNat % 16 * 4 + n) / 4 = b.toNat := by omega
  have hleft : (b.toNat % 16 * 4 + n) % 4 = n := by omega
  rw [read_digit _ (by omega)]
  simp only [hbyte, hleft, UInt8.ofNat_toNat]

/-- The fourth digit of a group gives its third byte. -/
theorem read_third (c : UInt8) (rest : List Char) :
    read (.three (c.toNat / 64)) (digit (c.toNat % 64) :: rest) =
      (read .empty rest).map (c :: ·) := by
  have hbyte : c.toNat / 64 * 64 + c.toNat % 64 = c.toNat := by omega
  rw [read_digit _ (by omega)]
  simp only [hbyte, UInt8.ofNat_toNat]

/-- The bytes are what their text is read as, with the padding that its length calls for. -/
theorem decode_encode (bytes : List UInt8) : decode? (encode bytes) = some bytes := by
  rw [decode?, pad]
  induction bytes using encode.induct with
  | case1 => rfl
  | case2 a =>
    have h := read_first a (show 0 < 16 by decide) ['=', '=']
    exact h
  | case3 a b =>
    have hb := b.toNat_lt
    have h := read_first a (show b.toNat / 16 < 16 by omega) [digit (b.toNat % 16 * 4 + 0), '=']
    rw [read_second b false (by decide)] at h
    exact h
  | case4 a b c rest ih =>
    have hb := b.toNat_lt
    have hc := c.toNat_lt
    have hpad : (4 - (encode (a :: b :: c :: rest)).length % 4) % 4 =
        (4 - (encode rest).length % 4) % 4 := by
      simp only [encode, List.length_cons]
      omega
    rw [hpad, encode]
    simp only [List.cons_append]
    rw [read_first a (by omega), read_second b false (by omega), read_third c, ih]
    rfl

theorem isAlphabet_of_mem {bytes : List UInt8} {c : Char} (h : c ∈ encode bytes) :
    ∃ n < 64, c = digit n := by
  induction bytes using encode.induct with
  | case1 => cases h
  | case2 a =>
    have ha := a.toNat_lt
    simp only [encode, List.mem_cons, List.not_mem_nil, or_false] at h
    rcases h with h | h
    · exact ⟨_, by omega, h⟩
    · exact ⟨_, by omega, h⟩
  | case3 a b =>
    have ha := a.toNat_lt
    have hb := b.toNat_lt
    simp only [encode, List.mem_cons, List.not_mem_nil, or_false] at h
    rcases h with h | h | h
    · exact ⟨_, by omega, h⟩
    · exact ⟨_, by omega, h⟩
    · exact ⟨_, by omega, h⟩
  | case4 a b c rest ih =>
    have ha := a.toNat_lt
    have hb := b.toNat_lt
    have hc := c.toNat_lt
    simp only [encode, List.mem_cons] at h
    rcases h with h | h | h | h | h
    · exact ⟨_, by omega, h⟩
    · exact ⟨_, by omega, h⟩
    · exact ⟨_, by omega, h⟩
    · exact ⟨_, by omega, h⟩
    · exact ih h

theorem encode_ne_nil {bytes : List UInt8} (h : bytes ≠ []) : encode bytes ≠ [] := by
  intro hnil
  have hdecode := decode_encode bytes
  rw [hnil] at hdecode
  exact h (Option.some.inj hdecode).symm

end Base64

namespace Text

theorem mem_hexBytes {bytes : List UInt8} {c : Char} (h : c ∈ hexBytes bytes) :
    ∃ n, c = hexDigit n := by
  have hhex (width n : Nat) (hc : c ∈ hex width n) : ∃ n, c = hexDigit n := by
    induction width generalizing n with
    | zero => cases hc
    | succ width ih =>
      rcases List.mem_append.mp hc with hc | hc
      · exact ih _ hc
      · exact ⟨n, List.mem_singleton.mp hc⟩
  obtain ⟨b, -, hc⟩ := List.mem_flatMap.mp h
  exact hhex 2 _ hc

theorem mod_eq_of_hexDigit {a b : Nat} (h : hexDigit a = hexDigit b) : a % 16 = b % 16 := by
  have hall : ∀ x < 16, ∀ y < 16, Nat.digitChar x = Nat.digitChar y → x = y := by decide
  exact hall (a % 16) (Nat.mod_lt a (by omega)) (b % 16) (Nat.mod_lt b (by omega)) h

theorem hex_two_injective {a b : UInt8} (h : hex 2 a.toNat = hex 2 b.toNat) : a = b := by
  have hdigits : hexDigit (a.toNat / 16) = hexDigit (b.toNat / 16) ∧
      hexDigit a.toNat = hexDigit b.toNat := by
    simpa [hex] using h
  have hhigh := mod_eq_of_hexDigit hdigits.1
  have hlow := mod_eq_of_hexDigit hdigits.2
  have ha := a.toNat_lt
  have hb := b.toNat_lt
  apply UInt8.toNat_inj.mp
  omega

theorem hexBytes_injective : Function.Injective hexBytes := by
  intro xs
  induction xs with
  | nil =>
    intro ys h
    cases ys with
    | nil => rfl
    | cons y ys => exact nomatch h
  | cons x xs ih =>
    intro ys h
    cases ys with
    | nil => exact nomatch h
    | cons y ys =>
      obtain ⟨hbyte, hrest⟩ := List.append_inj h rfl
      rw [hex_two_injective hbyte, ih hrest]

end Text

end Sluice
