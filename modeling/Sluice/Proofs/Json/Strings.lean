import Mathlib.Algebra.Group.Nat.Defs
import Sluice.Json.Reader
import Sluice.Json.Writer

/-!
Strings as JSON text. Every escape that is written is read as the character it stands for, and the
reader is ready for the next one afterwards: no character that is written is half of another one.
-/

namespace Sluice

namespace Text

theorem hexValue?_hexDigit (n : Nat) : hexValue? (hexDigit n) = some (n % 16) := by
  have hall : ∀ d < 16, hexValue? (Nat.digitChar d) = some d := by decide
  exact hall (n % 16) (Nat.mod_lt n (by omega))

end Text

namespace Json

/-- A place at which a character is read for itself, nothing of another one waiting. -/
def Place.Settled (p : Place) : Prop :=
  p = .plain ∨ p = .coded none

variable {start : List Char}

@[simp] theorem push_ok (cs more rest : List Char) :
    readChars.push cs (.ok (more, rest)) = .ok (cs ++ more, rest) := rfl

@[simp] theorem waiting_none : waiting none = [] := rfl

theorem readChars_settled {p : Place} (hp : p.Settled) (c : Char) (rest : List Char) :
    readChars start p (c :: rest) =
      if c = '"' then .ok ([], rest)
      else if c = '\\' then readChars start (.slash none) rest
      else if c.toNat < 0x20 then .error (.fault .controlCharacter (c :: rest))
      else readChars.push [c] (readChars start .plain rest) := by
  rcases hp with rfl | rfl
  · rw [readChars]
  · rw [readChars]
    rfl

/-- The digits of a code but for the last ones that are owed. -/
theorem readChars_hex (k n owed value : Nat) (high : Option Nat) (rest : List Char) :
    readChars start (.digits (k + owed + 1) value high) (Text.hex k n ++ rest) =
      readChars start (.digits (owed + 1) (value * 16 ^ k + n % 16 ^ k) high) rest := by
  induction k generalizing n owed rest with
  | zero => simp [Text.hex, Nat.mod_one]
  | succ k ih =>
    rw [Text.hex, List.append_assoc, show k + 1 + owed + 1 = k + (owed + 1) + 1 by omega, ih,
      List.singleton_append, readChars]
    simp only [Text.hexValue?_hexDigit, Nat.add_sub_cancel]
    rw [if_neg (by omega)]
    have hvalue : (value * 16 ^ k + n / 16 % 16 ^ k) * 16 + n % 16 =
        value * 16 ^ (k + 1) + n % 16 ^ (k + 1) := by
      rw [Nat.pow_succ, Nat.mul_comm (16 ^ k), Nat.mod_mul, Nat.add_mul, Nat.mul_assoc,
        Nat.mul_comm (16 ^ k), Nat.mul_comm (n / 16 % 16 ^ k)]
      omega
    rw [hvalue]

theorem readChars_unescape {p : Place} (hp : p.Settled) {x c : Char} (hx : x ≠ 'u')
    (h : unescape? x = some c) (rest : List Char) :
    readChars start p ('\\' :: x :: rest) = readChars.push [c] (readChars start .plain rest) := by
  rw [readChars_settled hp, if_neg (by decide), if_pos rfl, readChars, if_neg hx]
  simp only [h, waiting_none, List.nil_append]

/-- A code of four digits that is no half of a character is read as the character. -/
theorem readChars_code {p : Place} (hp : p.Settled) {c : Char} (hc : c.toNat < 0x20)
    (rest : List Char) :
    readChars start p ('\\' :: 'u' :: Text.hex 4 c.toNat ++ rest) =
      readChars.push [c] (readChars start (.coded none) rest) := by
  have hcode : Text.codeChars c.toNat = [c] := by
    have hvalid : c.toNat.isValidChar := c.valid
    rw [Text.codeChars, if_pos hvalid, Char.ofNat_toNat]
  have halone : ofCode c.toNat none = ([c], .coded none) := by
    have hhigh : isHighSurrogate c.toNat = false := by
      simp [isHighSurrogate]
      omega
    simp [ofCode, hhigh, hcode]
  have hhex : Text.hex 4 c.toNat ++ rest =
      Text.hex 3 (c.toNat / 16) ++ (Text.hexDigit c.toNat :: rest) := by
    rw [Text.hex, List.append_assoc, List.singleton_append]
  rw [List.cons_append, List.cons_append, readChars_settled hp, if_neg (by decide), if_pos rfl,
    readChars, if_pos rfl, hhex, readChars_hex 3 _ 0, readChars, Text.hexValue?_hexDigit]
  have hvalue : (0 * 16 ^ 3 + c.toNat / 16 % 16 ^ 3) * 16 + c.toNat % 16 = c.toNat := by omega
  simp only [hvalue, halone, ↓reduceIte]

/-- The three forms of a written character: a letter after a backslash, a code, or itself. -/
theorem escapeChar_cases (c : Char) :
    (∃ x, escapeChar c = ['\\', x] ∧ x ≠ 'u' ∧ unescape? x = some c) ∨
      (escapeChar c = '\\' :: 'u' :: Text.hex 4 c.toNat ∧ c.toNat < 0x20) ∨
      (escapeChar c = [c] ∧ c ≠ '"' ∧ c ≠ '\\' ∧ ¬ c.toNat < 0x20) := by
  unfold escapeChar
  iterate 7
    split
    · rename_i hc
      exact .inl ⟨_, rfl, by decide, by rw [hc]; rfl⟩
  split
  · rename_i hc
    exact .inr (.inl ⟨rfl, hc⟩)
  · rename_i hquote hslash _ _ _ _ _ hcontrol
    exact .inr (.inr ⟨rfl, hquote, hslash, hcontrol⟩)

/-- A character that is written is read, and the next one is read for itself. -/
theorem readChars_escapeChar {p : Place} (hp : p.Settled) (c : Char) (rest : List Char) :
    ∃ q : Place, q.Settled ∧
      readChars start p (escapeChar c ++ rest) = readChars.push [c] (readChars start q rest) := by
  rcases escapeChar_cases c with ⟨x, hc, hx, hread⟩ | ⟨hc, hcontrol⟩ | ⟨hc, hquote, hslash, hcontrol⟩
  · exact ⟨.plain, .inl rfl, hc ▸ readChars_unescape hp hx hread rest⟩
  · exact ⟨.coded none, .inr rfl, hc ▸ readChars_code hp hcontrol rest⟩
  · refine ⟨.plain, .inl rfl, ?_⟩
    rw [hc, List.singleton_append, readChars_settled hp, if_neg hquote, if_neg hslash,
      if_neg hcontrol]

theorem readChars_escaped {p : Place} (hp : p.Settled) (cs rest : List Char) :
    readChars start p (cs.flatMap escapeChar ++ '"' :: rest) = .ok (cs, rest) := by
  induction cs generalizing p with
  | nil => rw [List.flatMap_nil, List.nil_append, readChars_settled hp, if_pos rfl]
  | cons c cs ih =>
    rw [List.flatMap_cons, List.append_assoc]
    obtain ⟨q, hq, hread⟩ := readChars_escapeChar hp c (cs.flatMap escapeChar ++ '"' :: rest)
    rw [hread, ih hq]
    rfl

/-- A string that is written is read. -/
theorem readString_write (s : String) (rest : List Char) :
    readString start (s.toList.flatMap escapeChar ++ '"' :: rest) = .ok (s, rest) := by
  rw [readString, readChars_escaped (.inl rfl)]
  simp [Except.map, String.ofList_toList]

end Json

end Sluice
