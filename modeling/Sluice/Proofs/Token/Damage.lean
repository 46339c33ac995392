import Sluice.Proofs.Token.Refusal

/-!
Damaged tokens are refused. A text is opened only if it is a body, a dot and the signature of this
body, so a token that is cut short or changed on one side of its dot does not open. A changed body
needs one assumption, that its digest is not the digest of the old one. The text around the token may
be anything that is trimmed.
-/

namespace Sluice

namespace Token

variable {key : Option (List UInt8)} {u : String} {body : List Char}

/-- A text that opens is a body with its own signature, in ASCII, once it is trimmed. -/
theorem signed_of_openBody (h : openBody key (some u) = .ok body) :
    Text.PartsAtLast '.' (Text.trim u.toList) body (sign key body) ∧
      ∀ c ∈ u.toList, c.toNat < 0x80 := by
  unfold openBody at h
  simp only [Option.getD_some] at h
  split at h
  · exact nomatch h
  split at h
  · exact nomatch h
  rename_i before signature hcut
  split at h
  · exact nomatch h
  rename_i hparts
  split at h
  · rename_i hsign
    cases h
    have hplain : (body ≠ [] ∧ signature ≠ []) ∧ ∀ c ∈ u.toList, c.toNat < 0x80 := by
      simpa using hparts
    exact ⟨hsign ▸ Text.partsAtLast_of_cut hcut, hplain.2⟩
  · exact nomatch h

/-- What a token is apart from the text that it was. The text is cut short, only the part behind the
last dot is another, or only the part before it, whose digest is then another as well. A body that is
not in ASCII has no digest. -/
inductive Damage (key : Option (List UInt8)) (token text : List Char) : Prop
  | cut : text <+: token → Damage key token text
  | signature {body old new : List Char} : Text.PartsAtLast '.' token body old →
      Text.PartsAtLast '.' text body new → Damage key token text
  | body {signature old new : List Char} : Text.PartsAtLast '.' token old signature →
      Text.PartsAtLast '.' text new signature →
      ((∀ c ∈ new, c.toNat < 0x80) → Hmac.digest (signingKey key) (Utf8.encode new) ≠
        Hmac.digest (signingKey key) (Utf8.encode old)) → Damage key token text

theorem partsAtLast_encode (key : Option (List UInt8)) (c : Continuation) :
    Text.PartsAtLast '.' (encode key c).toList (bodyOf (Utf8.encode (payload c)))
      (sign key (bodyOf (Utf8.encode (payload c)))) := by
  refine ⟨by rw [encode, signed, String.toList_ofList], ?_⟩
  intro hdot
  exact (isPlain_sign key _ '.' hdot).2.2 rfl

/-- A damaged token does not open. -/
theorem not_opens_of_damage {c : Continuation}
    (hne : Text.trim u.toList ≠ (encode key c).toList)
    (h : Damage key (encode key c).toList (Text.trim u.toList)) (body : List Char) :
    openBody key (some u) ≠ .ok body := by
  intro hopen
  obtain ⟨htext, hascii⟩ := signed_of_openBody hopen
  have htoken := partsAtLast_encode key c
  -- With the body of the token it would be the token.
  have hbody : body ≠ bodyOf (Utf8.encode (payload c)) := by
    rintro rfl
    exact hne (htext.1.trans htoken.1.symm)
  cases h with
  | cut hfront =>
    obtain ⟨rest, hrest⟩ := hfront
    -- The token has one dot, so the text has its dot where the token has it.
    have hnodot : '.' ∉ bodyOf (Utf8.encode (payload c)) :=
      fun hdot => (isPlain_body '.' hdot).2.2 rfl
    rw [htoken.1, htext.1, List.append_assoc, List.cons_append, eq_comm,
      List.append_cons_inj_of_notMem hnodot htoken.2] at hrest
    exact hbody hrest.1.symm
  | signature hold hnew =>
    have hsame := (hnew.unique htext).1
    have hsame' := (hold.unique htoken).1
    exact hbody (hsame.symm.trans hsame')
  | @body signature old new hold hnew hdigest =>
    obtain ⟨rfl, rfl⟩ := hold.unique htoken
    obtain ⟨rfl, hsign⟩ := hnew.unique htext
    have hnewAscii : ∀ c ∈ new, c.toNat < 0x80 := by
      intro c hc
      refine hascii c (Text.mem_of_mem_trim ?_)
      rw [htext.1]
      exact List.mem_append_left _ hc
    exact hdigest hnewAscii (Text.hexBytes_injective hsign.symm)

/-- A damaged token is refused before its body is read. -/
theorem decode_damaged (c : Continuation) (hne : Text.trim u.toList ≠ (encode key c).toList)
    (h : Damage key (encode key c).toList (Text.trim u.toList)) :
    ∃ e, openBody key (some u) = .error (.token e) ∧ decode key (some u) = .error (.token e) := by
  cases hopen : openBody key (some u) with
  | ok body => exact absurd hopen (not_opens_of_damage hne h body)
  | error f =>
    obtain ⟨e, rfl⟩ := openBody_refuses hopen
    exact ⟨e, rfl, by rw [decode, hopen]; rfl⟩

/-- The token of an empty pipeline cut short with blanks around it, and the same token with another
body before its signature. -/
theorem damaged_copies_refused :
    let c : Continuation := ⟨[], 0, [], "", Nat.le_refl 0⟩
    let signature := sign none (bodyOf (Utf8.encode (payload c)))
    (encode none c).toList = bodyOf (Utf8.encode (payload c)) ++ '.' :: signature ∧
      ∀ u ∈ ["\n eyJ ", String.ofList ('x' :: '.' :: signature)],
        ∃ e, openBody none (some u) = .error (.token e) ∧
          decode none (some u) = .error (.token e) := by
  intro c signature
  have htoken := partsAtLast_encode none c
  refine ⟨htoken.1, ?_⟩
  rw [List.forall_mem_cons, List.forall_mem_singleton]
  constructor
  · have htext : Text.trim "\n eyJ ".toList = ['e', 'y', 'J'] := by decide +kernel
    have hfront : ['e', 'y', 'J'] <+: bodyOf (Utf8.encode (payload c)) := by decide +kernel
    apply decode_damaged c
    · rw [htext, htoken.1]
      intro heq
      have hdot : '.' ∈ ['e', 'y', 'J'] := by
        rw [heq]
        exact List.mem_append_right _ List.mem_cons_self
      exact absurd hdot (by decide)
    · rw [htext, htoken.1]
      exact .cut (hfront.trans (List.prefix_append _ _))
  · have htext : Text.trim (String.ofList ('x' :: '.' :: signature)).toList =
        'x' :: '.' :: signature := by
      rw [String.toList_ofList]
      apply Text.trimOf_eq_self
      rw [List.forall_mem_cons, List.forall_mem_cons]
      exact ⟨rfl, rfl, fun d hd => (isPlain_sign none _ d hd).1⟩
    have hparts : Text.PartsAtLast '.' ('x' :: '.' :: signature) ['x'] signature :=
      ⟨rfl, htoken.2⟩
    apply decode_damaged c
    · rw [htext]
      intro heq
      have hbody := (hparts.unique (heq ▸ htoken)).1
      exact absurd hbody (by decide +kernel)
    · rw [htext]
      exact .body htoken hparts fun _ => by decide +kernel

end Token

end Sluice
