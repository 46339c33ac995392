import Sluice.Proofs.Json.RoundTrip
import Sluice.Proofs.Text.Cut
import Sluice.Proofs.Text.Encodings
import Sluice.Proofs.Token.Contents
import Sluice.Token

/-!
Tokens are read back. The text of a token has no blanks to trim and one dot before the signature, so
it is taken apart where it was put together; the body holds the JSON of the continuation in bytes that
are text again.
-/

namespace Sluice

namespace Token

/-- What a character in a part of a token is: in ASCII, no blank and no dot. -/
def IsPlain (c : Char) : Prop :=
  Text.isBlank c = false ∧ c.toNat < 0x80 ∧ c ≠ '.'

instance (c : Char) : Decidable (IsPlain c) :=
  inferInstanceAs (Decidable (_ ∧ _))

theorem isPlain_body {bytes : List UInt8} : ∀ c ∈ bodyOf bytes, IsPlain c := by
  intro c hc
  obtain ⟨n, hn, rfl⟩ := Base64.isAlphabet_of_mem hc
  have hall : ∀ d < 64, IsPlain (Base64.digit d) := by decide
  exact hall n hn

theorem isPlain_sign (key : Option (List UInt8)) (body : List Char) : ∀ c ∈ sign key body, IsPlain c := by
  intro c hc
  obtain ⟨n, rfl⟩ := Text.mem_hexBytes hc
  have hall : ∀ d < 16, IsPlain (Nat.digitChar d) := by decide
  exact hall (n % 16) (Nat.mod_lt n (by omega))

theorem sign_ne_nil (key : Option (List UInt8)) (body : List Char) : sign key body ≠ [] := by
  rw [sign, Hmac.digest, Sha256.digest]
  simp [Sha256.wordBytes, Text.hexBytes, Text.hex]

/-- A signed body is opened with the same key. -/
theorem openBody_signed (key : Option (List UInt8)) {body : List Char} (hne : body ≠ [])
    (hplain : ∀ c ∈ body, IsPlain c) : openBody key (some (signed key body)) = .ok body := by
  have hsign := isPlain_sign key body
  have hchars : ∀ c ∈ body ++ '.' :: sign key body,
      Text.isBlank c = false ∧ c.toNat < 0x80 := by
    intro c hc
    rcases List.mem_append.mp hc with hc | hc
    · exact ⟨(hplain c hc).1, (hplain c hc).2.1⟩
    · rcases List.mem_cons.mp hc with rfl | hc
      · decide
      · exact ⟨(hsign c hc).1, (hsign c hc).2.1⟩
  have htrim : Text.trim (body ++ '.' :: sign key body) = body ++ '.' :: sign key body :=
    Text.trimOf_eq_self fun c hc => (hchars c hc).1
  have hparts : Text.PartsAtLast '.' (body ++ '.' :: sign key body) body (sign key body) :=
    ⟨rfl, fun h => (hsign '.' h).2.2 rfl⟩
  have hcut := hparts.cut
  have hascii : (body ++ '.' :: sign key body).all (fun c => c.toNat < 0x80) = true :=
    List.all_eq_true.mpr fun c hc => decide_eq_true (hchars c hc).2
  rw [openBody, signed, Option.getD_some, String.toList_ofList]
  simp only [htrim, hcut, hascii]
  simp [hne, sign_ne_nil]

/-- The body of a JSON value is read as the value. -/
theorem readBody_write {j : Json} (hwell : j.wellFormed = true) (hfinite : j.allFinite = true) :
    readBody (bodyOf (Utf8.encode (Json.write Json.compact j))) = .ok j := by
  rw [readBody, bodyOf, Base64.decode_encode, Option.bind_some, Utf8.decode_encode]
  simp only [Json.read_write Json.compact_lawful hwell (.inr hfinite)]

theorem body_ne_nil {j : Json} (hfinite : j.allFinite = true) :
    bodyOf (Utf8.encode (Json.write Json.compact j)) ≠ [] := by
  obtain ⟨c, t, htext, -⟩ := Json.begins_writeAt (l := Json.compact) 0 j (.inr hfinite)
  refine Base64.encode_ne_nil (Utf8.encode_ne_nil ?_)
  rw [Json.write, htext]
  exact List.cons_ne_nil c t

theorem kept_spec {j : Json} (h : j.wellFormed = true) :
    j.kept.wellFormed = true ∧ j.kept.allFinite = true :=
  ⟨Json.wellFormed_sorted ((Json.wellFormed_finite j).trans h),
    (Json.allFinite_sorted j.finite).trans (Json.allFinite_finite j)⟩

/-- What is read from the token of a continuation that can be kept is what its payload says. -/
theorem decode_encode_eq (key : Option (List UInt8)) {c : Continuation} (h : c.WellFormed) :
    decode key (some (encode key c)) = ofPayload c.toJson.kept := by
  obtain ⟨hwell, hfinite⟩ := kept_spec (Continuation.wellFormed_toJson h)
  have hopen := openBody_signed key (body_ne_nil hfinite) isPlain_body
  have hread := readBody_write hwell hfinite
  rw [encode, payload, ← Json.kept, decode, hopen]
  simp only [bind, Except.bind, hread]

/-- The token of a continuation that can be kept is accepted under the same key, and what is read
from it restores the continuation. -/
theorem decode_encode (key : Option (List UInt8)) {c : Continuation} (h : c.WellFormed) :
    ∃ restored, decode key (some (encode key c)) = .ok restored ∧ restored.Restores c := by
  obtain ⟨restored, hrestored, hrestores⟩ := Continuation.ofJson_kept h
  have hversion : c.toJson.kept.get? "version" = some (.int Continuation.version) :=
    Json.get?_kept (Continuation.wellFormed_toJson h) "version"
  have hpayload : ofPayload c.toJson.kept = .ok restored := by
    obtain ⟨ms, hms, -⟩ := Json.mem_of_get? hversion
    rw [hms] at hversion hrestored ⊢
    rw [Json.get?] at hversion
    simp only [ofPayload, hversion, Option.getD_some, ↓reduceIte, hrestored]
  exact ⟨restored, (decode_encode_eq key h).trans hpayload, hrestores⟩

end Token

end Sluice
