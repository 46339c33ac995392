import Sluice.CommandLine.Basic
import Sluice.Proofs.Json.Room
import Sluice.Proofs.Run.Writing
import Sluice.Proofs.Stream.Laws
import Sluice.Proofs.Token.Acceptance
import Sluice.Proofs.Token.RoundTrip

/-!
How a token is refused. Whatever text it is, and whatever bytes were signed, reading a token ends with
a continuation that is in order or with an error of the token, and a call that resumes it comes to an
envelope. There are two exceptions. The JSON reader refuses a whole number with too many digits on its
own account and gives up where arrays and objects stand inside one another too deep, and nobody takes
these failures for one of the token: they go through, past the envelope.
-/

namespace Sluice

namespace Token

/-- A continuation that is in order, or an error of the token. -/
def Settled (r : Except Failure Continuation) : Prop :=
  (∃ c, r = .ok c ∧ c.resumeAt ≤ c.pipeline.length ∧ c.WellFormed ∧
    ∀ x ∈ c.items, x.isValue = true) ∨ ∃ e, r = .error (.token e)

/-- The signature of a token is right, and the text in its body stops the JSON reader at a whole number
with too many digits. -/
def HoldsLongNumber (key : Option (List UInt8)) (token : Option String) : Prop :=
  ∃ body text digits, openBody key token = .ok body ∧
    (Base64.decode? body).bind Utf8.decode? = some text ∧
    Json.read text = .error (.longNumber digits) ∧ Text.maxDigits < digits

/-- The signature of a token is right, and the text in its body opens an array or an object for which
the JSON reader has no room. -/
def HoldsDeepText (room : Nat) (key : Option (List UInt8)) (token : Option String) : Prop :=
  ∃ body innermost, openBody key token = .ok body ∧ overflow? room body = some innermost

variable {key : Option (List UInt8)} {token : Option String}

theorem openBody_refuses {f : Failure} (h : openBody key token = .error f) : ∃ e, f = .token e := by
  unfold openBody at h
  simp only at h
  split at h
  · exact ⟨.missing, (Except.error.inj h).symm⟩
  · split at h
    · exact ⟨.malformed, (Except.error.inj h).symm⟩
    · split at h
      · exact ⟨.malformed, (Except.error.inj h).symm⟩
      · split at h
        · cases h
        · exact ⟨.tampered, (Except.error.inj h).symm⟩

theorem ofPayload_settled {j : Json} (hj : j.wellFormed = true) : Settled (ofPayload j) := by
  unfold ofPayload
  split
  · rename_i ms
    simp only
    split
    · cases hc : Continuation.ofJson (.obj ms) with
      | ok c =>
        obtain ⟨hwell, hvalues⟩ := Continuation.wellFormed_of_ofJson hj hc
        exact .inl ⟨c, rfl, c.resumeAt_le, hwell, hvalues⟩
      | error e => exact .inr ⟨_, rfl⟩
    · exact .inr ⟨_, rfl⟩
  · exact .inr ⟨_, rfl⟩

/-- What goes past the errors of tokens. -/
theorem not_settled_error {f : Failure} (h : ∀ e, f ≠ .token e) : ¬ Settled (.error f) := by
  rintro (⟨c, hc, -⟩ | ⟨e, he⟩)
  · cases hc
  · exact h e (Except.error.inj he)

/-- A long number in the text of a body is what the token fails with. -/
theorem decode_longNumber {body text : List Char} {digits : Nat}
    (hbody : openBody key token = .ok body)
    (htext : (Base64.decode? body).bind Utf8.decode? = some text)
    (hread : Json.read text = .error (.longNumber digits)) :
    decode key token = .error (.longNumber digits) := by
  have hbodyRead : readBody body = .error (.longNumber digits) := by
    simp only [readBody, htext, hread]
    rfl
  rw [decode, hbody]
  exact congrArg (· >>= ofPayload) hbodyRead

theorem settled_of_not_holdsLongNumber (h : ¬ HoldsLongNumber key token) :
    Settled (decode key token) := by
  rw [decode]
  cases hbody : openBody key token with
  | error f =>
    obtain ⟨e, rfl⟩ := openBody_refuses hbody
    exact .inr ⟨e, rfl⟩
  | ok body =>
    change Settled (readBody body >>= ofPayload)
    rw [readBody]
    cases htext : (Base64.decode? body).bind Utf8.decode? with
    | none => exact .inr ⟨.undecodable, rfl⟩
    | some text =>
      simp only
      cases hread : Json.read text with
      | ok j => exact ofPayload_settled (Json.read_wellFormed hread)
      | error e =>
        cases e with
        | malformed fault line => exact .inr ⟨.undecodable, rfl⟩
        | longNumber digits =>
          have hlong := Json.lt_of_read_longNumber hread
          exact absurd ⟨body, text, digits, hbody, htext, hread, hlong⟩ h

variable {room : Nat}

/-- Where there is room for all that its text opens, a token is read as if there were room for
anything. -/
theorem decodeWithin_eq (h : ¬ HoldsDeepText room key token) :
    decodeWithin room key token = decode key token := by
  cases hbody : openBody key token with
  | error f => rw [decodeWithin, decode, hbody]; rfl
  | ok body =>
    cases hroom : overflow? room body with
    | some innermost => exact absurd ⟨body, innermost, hbody, hroom⟩ h
    | none =>
      rw [decodeWithin, hbody]
      simp only [bind, Except.bind, hroom]

theorem decodeWithin_deep (h : HoldsDeepText room key token) :
    ∃ innermost, decodeWithin room key token = .error (.textTooDeep innermost) := by
  obtain ⟨body, innermost, hbody, hroom⟩ := h
  refine ⟨innermost, ?_⟩
  rw [decodeWithin, hbody]
  simp only [bind, Except.bind, hroom]
  rfl

/-- The failures of the JSON reader that are no faults of its text. -/
inductive TooMuch : Failure → Prop where
  | longNumber (digits : Nat) : TooMuch (.longNumber digits)
  | textTooDeep (innermost : Json.Container) : TooMuch (.textTooDeep innermost)

theorem TooMuch.ne_token {f : Failure} (h : TooMuch f) (e : TokenError) : f ≠ .token e := by
  cases h <;> exact nofun

theorem TooMuch.ne_envelopeNotText {f : Failure} (h : TooMuch f) (half : Text.Half) :
    f ≠ .envelopeNotText half := by
  cases h <;> exact nofun

/-- A token settles, or it holds what is too much for the reader and fails with that. -/
theorem settled_or_tooMuch (room : Nat) (key : Option (List UInt8)) (token : Option String) :
    (¬ HoldsLongNumber key token ∧ ¬ HoldsDeepText room key token) ∧
        Settled (decodeWithin room key token) ∨
      ¬ (¬ HoldsLongNumber key token ∧ ¬ HoldsDeepText room key token) ∧
        ∃ f, TooMuch f ∧ decodeWithin room key token = .error f := by
  by_cases hdeep : HoldsDeepText room key token
  · obtain ⟨innermost, hread⟩ := decodeWithin_deep hdeep
    exact .inr ⟨fun h => h.2 hdeep, _, .textTooDeep innermost, hread⟩
  rw [decodeWithin_eq hdeep]
  by_cases hlong : HoldsLongNumber key token
  · obtain ⟨body, text, digits, hbody, htext, hread, -⟩ := id hlong
    exact .inr ⟨fun h => h.1 hlong, _, .longNumber digits, decode_longNumber hbody htext hread⟩
  · exact .inl ⟨⟨hlong, hdeep⟩, settled_of_not_holdsLongNumber hlong⟩

theorem settled_decodeWithin_iff : Settled (decodeWithin room key token) ↔
    ¬ HoldsLongNumber key token ∧ ¬ HoldsDeepText room key token := by
  rcases settled_or_tooMuch room key token with ⟨hlimits, hsettled⟩ | ⟨hlimits, f, hf, hread⟩
  · exact iff_of_true hsettled hlimits
  · rw [hread]
    exact iff_of_false (not_settled_error hf.ne_token) hlimits

end Token

namespace CommandLine

/-- The end of a call that reports an envelope. It is printed if all of its strings are text. -/
structure Reports (r : Except Failure Exit) (e : Envelope) : Prop where
  reported : r = Exit.report e
  printed : e.toJson.half? = none → r = .ok ⟨envelopeCode e, e.text ++ "\n", ""⟩

theorem reports_report (e : Envelope) : Reports (Exit.report e) e :=
  ⟨rfl, Exit.report_eq_ok⟩

theorem not_reports_error {f : Failure} (h : ∀ half, f ≠ .envelopeNotText half) (e : Envelope) :
    ¬ Reports (.error f) e := by
  intro hreports
  cases hhalf : e.toJson.half? with
  | none => cases hreports.printed hhalf
  | some half =>
    exact h half (Except.error.inj (hreports.reported.trans (Exit.report_eq_error hhalf)))

/-- For a tool, a run comes to an envelope however it ends. -/
theorem exists_reports_perform (s : Surroundings) (settings : Settings) (pipeline : Pipeline)
    (source : Stream) (script : Script) :
    ∃ e, Reports ((perform s settings .tool pipeline source).run script).result e := by
  simp only [perform, Program.monad_bind, Program.run_bind, Program.result_attempt, Program.result_ofExcept]
  exact ⟨_, reports_report _⟩

variable {s : Surroundings} {settings : Settings} {token : Option String}

/-- A token that settles is resumed or given up, or it is refused. -/
theorem exists_reports_resumeToken (hsettings : Settings.load s.env = .ok settings)
    (h : Token.Settled (openToken s settings token)) (approved : Bool) (script : Script) :
    ∃ e, Reports ((resumeToken s token approved).run script).result e := by
  rcases h with ⟨c, hopen, -⟩ | ⟨e, hopen⟩
  · simp only [resumeToken, hsettings, hopen]
    split
    · exact exists_reports_perform _ _ _ _ _
    · rw [Program.result_ofExcept]
      exact ⟨_, reports_report _⟩
  · simp only [resumeToken, hsettings, hopen, Program.result_ofExcept]
    exact ⟨_, reports_report _⟩

/-- A failure that is no error of the token goes through. -/
theorem resumeToken_fail (hsettings : Settings.load s.env = .ok settings) {f : Failure}
    (hopen : openToken s settings token = .error f) (h : ∀ e, f ≠ .token e) (approved : Bool) :
    resumeToken s token approved = .fail f := by
  simp only [resumeToken, hsettings, hopen]

/-- The envelope of a token that is refused is printed. -/
theorem resumeToken_refused (hsettings : Settings.load s.env = .ok settings) {e : TokenError}
    (hopen : openToken s settings token = .error (.token e)) (approved : Bool) (script : Script) :
    ((resumeToken s token approved).run script).result =
      .ok ⟨1, (Envelope.failed .runtime e.message).text ++ "\n", ""⟩ := by
  have hhalf : (Envelope.failed .runtime e.message).toJson.half? = none :=
    Envelope.half?_failed e.unmarked_message
  simp only [resumeToken, hsettings, hopen, Program.result_ofExcept]
  exact Exit.report_eq_ok hhalf

/-- Where the secret of the settings is no text there is no key. -/
theorem tokenKey_cases (settings : Settings) :
    (∃ key, settings.tokenKey = .ok key) ∨
      ∃ half, settings.tokenKey = .error (.notEncodable half) := by
  cases hsecret : settings.tokenSecret with
  | none => exact .inl ⟨none, by rw [Settings.tokenKey, hsecret]⟩
  | some secret =>
    cases hhalf : Text.half? secret.toList with
    | none => exact .inl ⟨_, by simp only [Settings.tokenKey, hsecret, encodableText, hhalf]; rfl⟩
    | some half =>
      exact .inr ⟨half, by simp only [Settings.tokenKey, hsecret, encodableText, hhalf]; rfl⟩

/-- With settings that load, a call that resumes a token comes to an envelope if there is a key and the
token does not hold what is too much for the reader, and else it fails past the envelope. -/
theorem exists_reports_iff_of_settings (hsettings : Settings.load s.env = .ok settings)
    (token : Option String) (approved : Bool) (script : Script) :
    (∃ e, Reports ((resumeToken s token approved).run script).result e) ↔
      ∃ key, settings.tokenKey = .ok key ∧
        ¬ Token.HoldsLongNumber key token ∧ ¬ Token.HoldsDeepText s.room key token := by
  rcases tokenKey_cases settings with ⟨key, hkey⟩ | ⟨half, hkey⟩
  · have hopen : openToken s settings token = Token.decodeWithin s.room key token := by
      rw [openToken, hkey]
      rfl
    have hlimits : (∃ key', settings.tokenKey = .ok key' ∧ ¬ Token.HoldsLongNumber key' token ∧
        ¬ Token.HoldsDeepText s.room key' token) ↔
        ¬ Token.HoldsLongNumber key token ∧ ¬ Token.HoldsDeepText s.room key token := by
      rw [hkey]
      refine ⟨?_, fun h => ⟨key, rfl, h⟩⟩
      rintro ⟨key', hkey', h⟩
      cases hkey'
      exact h
    rw [hlimits]
    rcases Token.settled_or_tooMuch s.room key token with ⟨hholds, hsettled⟩ | ⟨hholds, f, hf, hread⟩
    · exact iff_of_true
        (exists_reports_resumeToken hsettings (hopen ▸ hsettled) approved script) hholds
    · rw [resumeToken_fail hsettings (hopen.trans hread) hf.ne_token]
      refine iff_of_false ?_ hholds
      rintro ⟨e, he⟩
      exact not_reports_error hf.ne_envelopeNotText e he
  · have hopen : openToken s settings token = .error (.notEncodable half) := by
      rw [openToken, hkey]
      rfl
    rw [resumeToken_fail hsettings hopen nofun, hkey]
    refine iff_of_false ?_ ?_
    · rintro ⟨e, he⟩
      exact not_reports_error (fun _ hne => by cases hne) e he
    · rintro ⟨key, hkey, -⟩
      cases hkey

/-- A call that resumes a token comes to an envelope if it can be signed and does not hold what is too
much for the reader, and else it fails past the envelope. -/
theorem exists_reports_iff (s : Surroundings) (token : Option String) (approved : Bool)
    (script : Script) :
    (∃ e, Reports ((resumeToken s token approved).run script).result e) ↔
      ∀ settings, Settings.load s.env = .ok settings → ∃ key, settings.tokenKey = .ok key ∧
        ¬ Token.HoldsLongNumber key token ∧ ¬ Token.HoldsDeepText s.room key token := by
  cases hsettings : Settings.load s.env with
  | error f =>
    have hresult : ((resumeToken s token approved).run script).result =
        Exit.report (.failed .runtime f.report) := by
      simp only [resumeToken, hsettings, Program.result_ofExcept]
      rfl
    rw [hresult]
    exact iff_of_true ⟨_, reports_report _⟩ nofun
  | ok settings =>
    rw [exists_reports_iff_of_settings hsettings]
    refine ⟨?_, fun h => h settings rfl⟩
    rintro h settings' hsettings'
    cases hsettings'
    exact h

end CommandLine

namespace Token

open CommandLine (Surroundings resumeToken openToken Reports)

/-- A token of any text, read with any key and any room, ends with a continuation in order or with an
error of the token, unless it is signed with the key and holds a whole number with too many digits or
opens more than there is room for. A call that resumes a token comes to an envelope unless the secret
of the settings is no text or the token holds one of these two, and then it comes to none. The
envelope of a token that is refused is printed. -/
theorem settled_iff_within_limits (room : Nat) (key : Option (List UInt8)) (token : Option String)
    (s : Surroundings) (approved : Bool) (script : Script) :
    (Settled (decodeWithin room key token) ↔
        ¬ HoldsLongNumber key token ∧ ¬ HoldsDeepText room key token) ∧
      ((∃ e, Reports ((resumeToken s token approved).run script).result e) ↔
        ∀ settings, Settings.load s.env = .ok settings → ∃ key, settings.tokenKey = .ok key ∧
          ¬ HoldsLongNumber key token ∧ ¬ HoldsDeepText s.room key token) ∧
      ∀ settings e, Settings.load s.env = .ok settings →
        openToken s settings token = .error (.token e) →
        ((resumeToken s token approved).run script).result =
          .ok ⟨1, (Envelope.failed .runtime e.message).text ++ "\n", ""⟩ := by
  refine ⟨settled_decodeWithin_iff, CommandLine.exists_reports_iff s token approved script, ?_⟩
  intro settings e hsettings hopen
  exact CommandLine.resumeToken_refused hsettings hopen approved script

/-- A whole number with too many digits that is signed as a payload. -/
theorem holdsLongNumber_signed (key : Option (List UInt8)) {whole : List Char}
    (hwhole : Json.IsWhole whole) (hlength : Text.maxDigits < whole.length) :
    HoldsLongNumber key (some (signed key (bodyOf (Utf8.encode whole)))) := by
  have hne : whole ≠ [] := List.ne_nil_of_length_pos (Nat.zero_lt_of_lt hlength)
  have hopen := openBody_signed key (Base64.encode_ne_nil (Utf8.encode_ne_nil hne)) isPlain_body
  refine ⟨_, whole, whole.length, hopen, ?_, Json.read_long hwhole hlength, hlength⟩
  rw [Base64.decode_encode, Option.bind_some, Utf8.decode_encode]

/-- Brackets that are signed as a payload, more than there is room for. -/
theorem holdsDeepText_signed (key : Option (List UInt8)) {room n : Nat} (h : room < n) :
    HoldsDeepText room key (some (signed key (bodyOf (Utf8.encode (List.replicate n '['))))) := by
  obtain ⟨n, rfl⟩ := Nat.exists_eq_succ_of_ne_zero (Nat.ne_of_gt (Nat.zero_lt_of_lt h))
  have hne : List.replicate (n + 1) '[' ≠ [] := List.cons_ne_nil _ _
  have hopen := openBody_signed key (Base64.encode_ne_nil (Utf8.encode_ne_nil hne)) isPlain_body
  refine ⟨_, .array, hopen, ?_⟩
  have hskip : Json.skipSpace (List.replicate (n + 1) '[') = List.replicate (n + 1) '[' :=
    Json.skipSpace_cons (by rfl) _
  rw [overflow?, Base64.decode_encode, Option.bind_some, Utf8.decode_encode,
    Option.bind_some]
  change Json.overflow? room _ (Json.skipSpace (List.replicate (n + 1) '[')) = _
  rw [hskip, Json.overflow?_brackets h]
  rw [List.length_replicate]
  omega

/-- Too many ones and too many brackets, signed with the built-in key, are no errors of the token, and
resuming them comes to no envelope. -/
theorem over_long_and_over_deep_go_through :
    let goesThrough (text : List Char) : Prop :=
      let token := signed none (bodyOf (Utf8.encode text))
      ¬ Settled (decodeWithin 950 none (some token)) ∧
        ∀ e, ¬ Reports ((resumeToken ⟨[], false, 950⟩ (some token) true).run .empty).result e
    goesThrough (List.replicate 4301 '1') ∧ goesThrough (List.replicate 1000 '[') := by
  intro goesThrough
  have hsettings : Settings.load (⟨[], false, 950⟩ : Surroundings).env = .ok ⟨none, none⟩ := by
    rfl
  have hgoes (text : List Char)
      (h : HoldsLongNumber none (some (signed none (bodyOf (Utf8.encode text)))) ∨
        HoldsDeepText 950 none (some (signed none (bodyOf (Utf8.encode text))))) :
      goesThrough text := by
    have hlimits := not_and_or.mpr (h.imp not_not.mpr not_not.mpr)
    refine ⟨mt settled_decodeWithin_iff.mp hlimits, fun e he => ?_⟩
    obtain ⟨key, hkey, hnone⟩ :=
      (CommandLine.exists_reports_iff_of_settings hsettings _ _ _).mp ⟨e, he⟩
    cases hkey
    exact hlimits hnone
  have hones : Json.IsWhole (List.replicate 4301 '1') := by
    have hdigits : Json.Digits (List.replicate 4300 '1') := by
      intro c hc
      rw [List.eq_of_mem_replicate hc]
      rfl
    rw [List.replicate_succ]
    exact .digits (by rfl) (by decide) hdigits
  refine ⟨hgoes _ (.inl ?_), hgoes _ (.inr ?_)⟩
  · exact holdsLongNumber_signed none hones (by rw [List.length_replicate]; decide)
  · exact holdsDeepText_signed none (by decide)

end Token

end Sluice
