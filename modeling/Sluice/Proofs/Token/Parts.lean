import Sluice.Proofs.Text.Cut
import Sluice.Proofs.Text.Encodings
import Sluice.Token

/-!
The two parts of a token. A body is as long as its bytes need, in letters, digits and the two marks
that a URL leaves alone, and it gives back the bytes though it came without padding. There is no dot
in hexadecimal digits, so the last dot of a token is the one that was put before its signature.
-/

namespace Sluice

namespace Base64

def IsUrlSafe (c : Char) : Prop :=
  c.isAlphanum = true ∨ c = '-' ∨ c = '_'

instance (c : Char) : Decidable (IsUrlSafe c) :=
  inferInstanceAs (Decidable (_ ∨ _))

theorem isUrlSafe_of_mem {bytes : List UInt8} : ∀ c ∈ encode bytes, IsUrlSafe c := by
  intro c hc
  obtain ⟨n, hn, rfl⟩ := isAlphabet_of_mem hc
  have hall : ∀ d < 64, IsUrlSafe (digit d) := by decide
  exact hall n hn

/-- Six bits a character, the last ones filled up, and nothing behind them. -/
theorem length_encode (bytes : List UInt8) :
    (encode bytes).length = (8 * bytes.length + 5) / 6 := by
  induction bytes using encode.induct with
  | case1 => rfl
  | case2 a => simp [encode]
  | case3 a b => simp [encode]
  | case4 a b c rest ih =>
    simp only [encode, List.length_cons, ih]
    omega

end Base64

theorem Text.dot_not_mem_of_hex {cs : List Char} (h : ∀ c ∈ cs, (hexValue? c).isSome = true) :
    '.' ∉ cs := by
  intro hdot
  exact absurd (h '.' hdot) (by decide)

namespace Token

/-- The body of any bytes is read as these bytes and is written without padding, in URL-safe
characters alone; and any body with a dot and a hexadecimal signature behind it comes apart at the
last dot. -/
theorem parts_recovered (bytes : List UInt8) (body : List Char) {signature : List Char}
    (hsignature : ∀ c ∈ signature, (Text.hexValue? c).isSome = true) :
    Base64.decode? (bodyOf bytes) = some bytes ∧
      (bodyOf bytes).length = (8 * bytes.length + 5) / 6 ∧
      (∀ c ∈ bodyOf bytes, Base64.IsUrlSafe c) ∧
      Text.cutAtLast? '.' (body ++ '.' :: signature) = some (body, signature) := by
  have hparts : Text.PartsAtLast '.' (body ++ '.' :: signature) body signature :=
    ⟨rfl, Text.dot_not_mem_of_hex hsignature⟩
  exact ⟨Base64.decode_encode bytes, Base64.length_encode bytes, Base64.isUrlSafe_of_mem,
    hparts.cut⟩

/-- One byte is left over behind three that need both marks, and the body has a dot of its own. -/
theorem marks_and_dots_recovered :
    bodyOf [0xfb, 0xef, 0xff, 0x00] = "--__AA".toList ∧
      Base64.decode? "--__AA".toList = some [0xfb, 0xef, 0xff, 0x00] ∧
      (∀ c ∈ "--__AA".toList, Base64.IsUrlSafe c) ∧
      Text.cutAtLast? '.' "a.b.0f".toList = some ("a.b".toList, "0f".toList) := by
  have hbody : bodyOf [0xfb, 0xef, 0xff, 0x00] = "--__AA".toList := by decide
  have hsignature : ∀ c ∈ "0f".toList, (Text.hexValue? c).isSome = true :=
    List.all_eq_true.mp (by decide)
  have h := parts_recovered [0xfb, 0xef, 0xff, 0x00] "a.b".toList hsignature
  rw [hbody] at h
  exact ⟨hbody, h.1, h.2.2.1, h.2.2.2⟩

end Token

end Sluice
