import Sluice.Proofs.Json.RoundTrip

/-!
Reading a text that goes on. A value is read up to its own end, so it is read just as well when the
text goes on behind it, as long as that begins with a character that cannot be part of a value. Hence
a piece of the text of a value, cut off in front of such a character, is no value itself: the whole
text would end where the piece does.
-/

namespace Sluice.Json

/-- A text that begins with a character that is not ASCII. -/
def Foreign (more : List Char) : Prop :=
  ∃ c rest, more = c :: rest ∧ 0x7f < c.toNat

/-- What one reading comes to, another one comes to with more text left. -/
def Extends {α : Type} (more : List Char) (r r' : Except Stop (α × List Char)) : Prop :=
  ∀ a rest, r = .ok (a, rest) → r' = .ok (a, rest ++ more)

section

variable {α β : Type} {more : List Char} {r r' : Except Stop (α × List Char)}

theorem extends_error (stop : Stop) (r' : Except Stop (α × List Char)) :
    Extends more (.error stop) r' := by
  intro a rest h
  cases h

theorem extends_ok (a : α) (rest : List Char) :
    Extends more (.ok (a, rest)) (.ok (a, rest ++ more)) := by
  intro b rest' h
  cases h
  rfl

theorem Extends.bind {f f' : α × List Char → Except Stop (β × List Char)} (hr : Extends more r r')
    (hf : ∀ a rest, Extends more (f (a, rest)) (f' (a, rest ++ more))) :
    Extends more (r >>= f) (r' >>= f') := by
  cases r with
  | error stop => exact extends_error stop _
  | ok ar =>
    rw [hr ar.1 ar.2 rfl]
    exact hf ar.1 ar.2

theorem Extends.map (hr : Extends more r r') (f : α → β) :
    Extends more (r.map fun (a, rest) => (f a, rest)) (r'.map fun (a, rest) => (f a, rest)) := by
  cases r with
  | error stop => exact extends_error stop _
  | ok ar =>
    rw [hr ar.1 ar.2 rfl]
    exact extends_ok (f ar.1) ar.2

end

section

variable {more : List Char}

/-- The text behind a value begins with none of the characters of ASCII. -/
theorem Foreign.head_ne (h : Foreign more) {p : Char → Bool} (hp : ∀ c, p c = true → c.toNat ≤ 0x7f) :
    ∀ c ∈ more.head?, p c = false := by
  obtain ⟨c, rest, rfl, hc⟩ := h
  intro d hd
  obtain rfl : c = d := Option.some.inj hd
  rw [Bool.eq_false_iff]
  intro hp'
  have := hp c hp'
  omega

theorem Foreign.head_ne_char (h : Foreign more) {d : Char} (hd : d.toNat ≤ 0x7f) :
    ∀ c ∈ more.head?, c ≠ d := by
  have hne := h.head_ne (p := (· == d)) fun c hc => by
    rw [beq_iff_eq.mp hc]
    exact hd
  exact fun c hc => beq_eq_false_iff_ne.mp (hne c hc)

theorem takeWhile_append {p : Char → Bool} (h : ∀ c ∈ more.head?, p c = false) (cs : List Char) :
    (cs ++ more).takeWhile p = cs.takeWhile p := by
  induction cs with
  | nil =>
    cases more with
    | nil => rfl
    | cons c more => rw [List.nil_append, List.takeWhile_cons_of_neg (by simp [h c rfl])]; rfl
  | cons c cs ih => simp only [List.cons_append, List.takeWhile_cons, ih]

theorem dropWhile_append {p : Char → Bool} (h : ∀ c ∈ more.head?, p c = false) (cs : List Char) :
    (cs ++ more).dropWhile p = cs.dropWhile p ++ more := by
  induction cs with
  | nil =>
    cases more with
    | nil => rfl
    | cons c more => rw [List.nil_append, List.dropWhile_cons_of_neg (by simp [h c rfl])]; rfl
  | cons c cs ih =>
    simp only [List.cons_append, List.dropWhile_cons, ih]
    split <;> rfl

theorem isSpace_le {c : Char} (h : isSpace c = true) : c.toNat ≤ 0x7f := by
  simp only [isSpace, Bool.or_eq_true, beq_iff_eq] at h
  rcases h with ((rfl | rfl) | rfl) | rfl <;> decide

theorem isDigit_le {c : Char} (h : isDigit c = true) : c.toNat ≤ 0x7f := by
  simp only [isDigit, Bool.and_eq_true, decide_eq_true_eq, Char.le_def, UInt32.le_iff_toNat_le] at h
  exact Nat.le_trans h.2 (by decide)

theorem skipSpace_append_foreign (h : Foreign more) (cs : List Char) :
    skipSpace (cs ++ more) = skipSpace cs ++ more :=
  dropWhile_append (h.head_ne fun _ => isSpace_le) cs

theorem readChars_extends (start start' : List Char) (place : Place) (cs : List Char) :
    Extends more (readChars start place cs) (readChars start' place (cs ++ more)) := by
  -- The first group are faults: a reading that fails is extended by every other one.
  fun_induction readChars start place cs with
  | case1 | case2 | case3 | case4 | case7 | case8 | case13 | case17 => exact extends_error _ _
  | case5 high rest ih =>
    rw [List.cons_append, readChars, if_pos rfl]
    exact ih
  | case6 high c rest hu x hx ih =>
    rw [List.cons_append, readChars, if_neg hu, hx]
    exact ih.map _
  | case9 value high c rest d hd cs place hcode ih =>
    rw [List.cons_append, readChars, hd]
    simp only [↓reduceIte, hcode]
    exact ih.map _
  | case10 owed value high c rest d hd howed ih =>
    rw [List.cons_append, readChars, hd]
    simp only [if_neg howed]
    exact ih
  | case11 rest =>
    rw [List.cons_append, readChars, if_pos rfl]
    exact extends_ok [] rest
  | case12 rest hquote ih =>
    rw [List.cons_append, readChars, if_neg hquote, if_pos rfl]
    exact ih
  | case14 c rest hquote hslash hcontrol ih =>
    rw [List.cons_append, readChars, if_neg hquote, if_neg hslash, if_neg hcontrol]
    exact ih.map _
  | case15 high rest =>
    rw [List.cons_append, readChars, if_pos rfl]
    exact extends_ok (waiting high) rest
  | case16 high rest hquote ih =>
    rw [List.cons_append, readChars, if_neg hquote, if_pos rfl]
    exact ih
  | case18 high c rest hquote hslash hcontrol ih =>
    rw [List.cons_append, readChars, if_neg hquote, if_neg hslash, if_neg hcontrol]
    exact ih.map _

theorem readString_extends (start start' rest : List Char) :
    Extends more (readString start rest) (readString start' (rest ++ more)) :=
  (readChars_extends start start' .plain rest).map String.ofList

theorem Foreign.no_digit (h : Foreign more) : ∀ c ∈ more.head?, isDigit c = false :=
  h.head_ne fun _ => isDigit_le

theorem Foreign.noNumber (h : Foreign more) : NoNumber more :=
  fun c hc => ⟨h.no_digit c hc, h.head_ne_char (by decide) c hc, h.head_ne_char (by decide) c hc,
    h.head_ne_char (by decide) c hc⟩

theorem readWhole_foreign (h : Foreign more) {cs whole rest : List Char}
    (hread : readWhole cs = some (whole, rest)) :
    readWhole (cs ++ more) = some (whole, rest ++ more) := by
  unfold readWhole at hread
  split at hread
  · cases hread
    rfl
  · rename_i d cs hzero
    split at hread
    · rename_i hd
      cases hread
      rw [List.cons_append, readWhole.eq_def]
      split
      · rename_i heq
        exact absurd (List.cons.inj heq).1 hzero
      · rename_i heq
        cases heq
        rw [if_pos hd, takeWhile_append h.no_digit, dropWhile_append h.no_digit]
      · rename_i heq
        cases heq
    · cases hread
  · cases hread

theorem readFraction_foreign (h : Foreign more) (cs : List Char) :
    readFraction (cs ++ more) = ((readFraction cs).1, (readFraction cs).2 ++ more) := by
  cases cs with
  | nil =>
    rw [List.nil_append, readFraction_none (h.head_ne_char (by decide))]
    rfl
  | cons c rest =>
    by_cases hc : c = '.'
    · subst hc
      cases rest with
      | nil =>
        obtain ⟨c, rest, rfl, -⟩ := id h
        have hc : isDigit c = false := h.no_digit c rfl
        simp [readFraction, hc]
      | cons d rest =>
        rw [List.cons_append, List.cons_append, readFraction, readFraction]
        split
        · rw [takeWhile_append h.no_digit, dropWhile_append h.no_digit]
        · rfl
    · have hpoint (rest : List Char) : readFraction (c :: rest) = ([], c :: rest) :=
        readFraction_none (by simpa using hc)
      rw [List.cons_append, hpoint, hpoint]
      rfl

theorem readExponentDigits_foreign (h : Foreign more) (cs : List Char) :
    readExponentDigits (cs ++ more) =
      (readExponentDigits cs).map fun (n, rest) => (n, rest ++ more) := by
  simp only [readExponentDigits, takeWhile_append h.no_digit, dropWhile_append h.no_digit]
  split <;> rfl

theorem readExponent_unsigned {e : Char} (he : e = 'e' ∨ e = 'E') {rest : List Char}
    (hsign : ∀ c ∈ rest.head?, c ≠ '-' ∧ c ≠ '+') :
    readExponent (e :: rest) =
      (readExponentDigits rest).map fun (n, after) => ((n : Int), after) := by
  rw [readExponent.eq_def]
  simp only [if_pos he]
  split
  · exact absurd rfl (hsign '-' rfl).1
  · exact absurd rfl (hsign '+' rfl).2
  · rfl

theorem readExponent_foreign (h : Foreign more) (cs : List Char) :
    readExponent (cs ++ more) = (readExponent cs).map fun (e, rest) => (e, rest ++ more) := by
  have hdigits := readExponentDigits_foreign h
  cases cs with
  | nil =>
    rw [List.nil_append, readExponent_none h.noNumber]
    rfl
  | cons e rest =>
    by_cases he : e = 'e' ∨ e = 'E'
    · have hunsigned (rest : List Char) (hsign : ∀ c ∈ rest.head?, c ≠ '-' ∧ c ≠ '+')
          (hsign' : ∀ c ∈ (rest ++ more).head?, c ≠ '-' ∧ c ≠ '+') :
          readExponent (e :: (rest ++ more)) =
            (readExponent (e :: rest)).map fun (e, rest) => (e, rest ++ more) := by
        rw [readExponent_unsigned he hsign, readExponent_unsigned he hsign', hdigits,
          Option.map_map, Option.map_map]
        rfl
      cases rest with
      | nil =>
        refine hunsigned [] nofun fun c hc => ?_
        exact ⟨h.head_ne_char (by decide) c hc, h.head_ne_char (by decide) c hc⟩
      | cons s tail =>
        by_cases hminus : s = '-'
        · subst hminus
          simp only [List.cons_append, readExponent, if_pos he, hdigits, Option.map_map]
          rfl
        by_cases hplus : s = '+'
        · subst hplus
          simp only [List.cons_append, readExponent, if_pos he, hdigits, Option.map_map]
          rfl
        have hsign : ∀ c ∈ (s :: tail).head?, c ≠ '-' ∧ c ≠ '+' := by
          rintro c ⟨⟩
          exact ⟨hminus, hplus⟩
        exact hunsigned (s :: tail) hsign hsign
    · have hnone (rest : List Char) : readExponent (e :: rest) = none := by
        rw [readExponent.eq_def]
        simp only [if_neg he]
      rw [List.cons_append, hnone, hnone]
      rfl

theorem readUnsigned_extends (h : Foreign more) (negative : Bool) (cs : List Char) :
    Extends more (readUnsigned negative cs) (readUnsigned negative (cs ++ more)) := by
  unfold readUnsigned
  cases hwhole : readWhole cs with
  | none => exact extends_error _ _
  | some parts =>
    obtain ⟨whole, rest⟩ := parts
    rw [readWhole_foreign h hwhole]
    simp only [readFraction_foreign h, readExponent_foreign h]
    cases readExponent (readFraction rest).2 with
    | some parts => exact extends_ok _ _
    | none =>
      -- Whether there is a fraction, and how long the number is, does not depend on what follows.
      simp only [Option.map_none]
      split
      · exact extends_ok _ _
      · split
        · exact extends_error _ _
        · exact extends_ok _ _

theorem readNumber_extends (h : Foreign more) (cs : List Char) :
    Extends more (readNumber cs) (readNumber (cs ++ more)) := by
  cases cs with
  | nil => exact extends_error _ _
  | cons c rest =>
    by_cases hminus : c = '-'
    · subst hminus
      exact readUnsigned_extends h true rest
    · have hunsigned (rest : List Char) : readNumber (c :: rest) = readUnsigned false (c :: rest) := by
        rw [readNumber.eq_def]
        split
        · rename_i heq
          exact absurd (List.cons.inj heq).1 hminus
        · rfl
      rw [List.cons_append, hunsigned, hunsigned]
      exact readUnsigned_extends h false (c :: rest)

theorem cons_of_readWhole {cs whole rest : List Char} (h : readWhole cs = some (whole, rest)) :
    ∃ d ds, cs = d :: ds ∧ isDigit d = true := by
  unfold readWhole at h
  split at h
  · exact ⟨'0', _, rfl, rfl⟩
  · split at h
    · rename_i d ds _ hd
      exact ⟨d, ds, rfl, hd⟩
    · cases h
  · cases h

/-- What is read as a number begins like one. -/
theorem numeric_of_readNumber {cs rest : List Char} {j : Json} (h : readNumber cs = .ok (j, rest)) :
    Numeric cs := by
  have hdigit {negative : Bool} {cs : List Char} (h : readUnsigned negative cs = .ok (j, rest)) :
      ∃ d ds, cs = d :: ds ∧ isDigit d = true := by
    unfold readUnsigned at h
    cases hwhole : readWhole cs with
    | none =>
      rw [hwhole] at h
      cases h
    | some parts => exact cons_of_readWhole hwhole
  unfold readNumber at h
  split at h
  · obtain ⟨d, ds, rfl, hd⟩ := hdigit h
    exact ⟨true, d, ds, rfl, hd⟩
  · obtain ⟨d, ds, rfl, hd⟩ := hdigit h
    exact ⟨false, d, ds, rfl, hd⟩

/-- Words are read as the values that they stand for, whatever follows. -/
theorem readValue_word {word : List Char} {j : Json} (h : (word, j) ∈ words) (fuel : Nat)
    (rest : List Char) : readValue (fuel + 1) (word ++ rest) = .ok (j, rest) := by
  simp only [words, List.mem_cons, List.not_mem_nil, or_false, Prod.mk.injEq] at h
  rcases h with h | h | h | h | h | h <;> · obtain ⟨rfl, rfl⟩ := h; rfl

theorem word_of_readWord? {cs rest : List Char} {j : Json} (h : readWord? cs = some (j, rest)) :
    ∃ word, (word, j) ∈ words ∧ cs = word ++ rest := by
  obtain ⟨⟨word, j'⟩, hword, hvalue⟩ := List.exists_of_findSome?_eq_some h
  simp only at hvalue
  split at hvalue
  · rename_i hstart
    cases hvalue
    obtain ⟨rest, rfl⟩ := List.isPrefixOf_iff_prefix.mp hstart
    exact ⟨word, hword, by rw [List.drop_left]⟩
  · cases hvalue

/-- An ASCII character at the front of the longer text is at the front of the text itself. -/
theorem Foreign.cons_of_append_eq (h : Foreign more) {d : Char} (hd : d.toNat ≤ 0x7f)
    {cs rest : List Char} (heq : cs ++ more = d :: rest) : ∃ t, cs = d :: t := by
  cases cs with
  | nil =>
    rw [List.nil_append] at heq
    exact absurd rfl (h.head_ne_char hd d (by rw [heq]; rfl))
  | cons c cs => exact ⟨cs, by rw [(List.cons.inj heq).1]⟩

/-- Words and numbers: what begins with none of the marks of strings, arrays and objects. -/
theorem readPlain_extends (h : Foreign more) (fuel : Nat) (cs : List Char) :
    Extends more (match readWord? cs with
      | some r => .ok r
      | none => readNumber cs) (readValue (fuel + 1) (cs ++ more)) := by
  cases hword : readWord? cs with
  | some found =>
    obtain ⟨word, hmem, rfl⟩ := word_of_readWord? hword
    rw [List.append_assoc, readValue_word hmem]
    exact extends_ok _ _
  | none =>
    intro j rest hread
    rw [((numeric_of_readNumber hread).append more).readValue]
    exact readNumber_extends h cs j rest hread

section Step

variable {fuel fuel' : Nat} (h : Foreign more)
  (hvalue : ∀ cs, Extends more (readValue fuel cs) (readValue fuel' (cs ++ more)))
  (helements : ∀ cs, Extends more (readElements fuel cs) (readElements fuel' (cs ++ more)))
  (hmembers : ∀ cs, Extends more (readMembers fuel cs) (readMembers fuel' (cs ++ more)))

include h helements hmembers in
/-- What is behind a text cannot close an array or an object that was opened in it. -/
theorem readValue_extends (cs : List Char) :
    Extends more (readValue (fuel + 1) cs) (readValue (fuel' + 1) (cs ++ more)) := by
  have hskip := skipSpace_append_foreign h
  rw [readValue.eq_def (fuel + 1)]
  simp only
  split
  · rw [List.cons_append, readValue]
    exact (readString_extends _ _ _).map Json.str
  · rw [List.cons_append, readValue, hskip]
    split
    · rename_i rest heq
      rw [heq]
      exact extends_ok _ rest
    · rename_i hclose
      split
      · rename_i heq
        obtain ⟨t, ht⟩ := h.cons_of_append_eq (by decide) heq
        exact absurd ht (hclose t)
      · exact (helements _).map Json.arr
  · rw [List.cons_append, readValue, hskip]
    split
    · rename_i rest heq
      rw [heq]
      exact extends_ok _ rest
    · rename_i hclose
      split
      · rename_i heq
        obtain ⟨t, ht⟩ := h.cons_of_append_eq (by decide) heq
        exact absurd ht (hclose t)
      · exact (hmembers _).map fun ms => Json.obj (distinct ms)
  · exact readPlain_extends h fuel' cs

include h hvalue helements in
theorem readElements_extends (cs : List Char) :
    Extends more (readElements (fuel + 1) cs) (readElements (fuel' + 1) (cs ++ more)) := by
  have hskip := skipSpace_append_foreign h
  rw [readElements, readElements]
  refine (hvalue cs).bind fun x rest => ?_
  simp only [hskip]
  split
  · rename_i rest heq
    rw [heq]
    exact extends_ok _ rest
  · rename_i rest heq
    simp only [heq, List.cons_append, hskip]
    refine (helements _).bind fun xs rest => ?_
    exact extends_ok _ rest
  · exact extends_error _ _

include h hvalue hmembers in
theorem readMembers_extends (cs : List Char) :
    Extends more (readMembers (fuel + 1) cs) (readMembers (fuel' + 1) (cs ++ more)) := by
  have hskip := skipSpace_append_foreign h
  rw [readMembers.eq_def (fuel + 1)]
  simp only
  split
  · rw [List.cons_append, readMembers]
    refine (readString_extends _ _ _).bind fun key rest => ?_
    simp only [hskip]
    split
    · rename_i rest heq
      simp only [heq, List.cons_append, hskip]
      refine (hvalue _).bind fun x rest => ?_
      simp only [hskip]
      split
      · rename_i rest heq
        rw [heq]
        exact extends_ok _ rest
      · rename_i rest heq
        simp only [heq, List.cons_append, hskip]
        refine (hmembers _).bind fun ms rest => ?_
        exact extends_ok _ rest
      · exact extends_error _ _
    · exact extends_error _ _
  · exact extends_error _ _

end Step

/-- The three readers of values by the fuel they are given. More fuel does no harm. -/
theorem reads_extend (h : Foreign more) {fuel fuel' : Nat} (hle : fuel ≤ fuel') :
    (∀ cs, Extends more (readValue fuel cs) (readValue fuel' (cs ++ more))) ∧
      (∀ cs, Extends more (readElements fuel cs) (readElements fuel' (cs ++ more))) ∧
      ∀ cs, Extends more (readMembers fuel cs) (readMembers fuel' (cs ++ more)) := by
  induction fuel generalizing fuel' with
  | zero => exact ⟨fun _ => extends_error _ _, fun _ => extends_error _ _, fun _ => extends_error _ _⟩
  | succ fuel ih =>
    obtain ⟨fuel', rfl⟩ : ∃ n, fuel' = n + 1 := ⟨fuel' - 1, by omega⟩
    obtain ⟨hvalue, helements, hmembers⟩ := ih (Nat.le_of_succ_le_succ hle)
    exact ⟨readValue_extends h helements hmembers, readElements_extends h hvalue helements,
      readMembers_extends h hvalue hmembers⟩

end

theorem readValue_of_readDocument {cs : List Char} {j : Json} (h : readDocument cs = .ok j) :
    ∃ rest, readValue (2 * cs.length + 2) (skipSpace cs) = .ok (j, rest) := by
  unfold readDocument at h
  split at h
  · cases h
  · cases hvalue : readValue (2 * cs.length + 2) (skipSpace cs) with
    | error stop =>
      rw [hvalue] at h
      cases h
    | ok found =>
      rw [hvalue] at h
      simp only [bind, Except.bind] at h
      split at h
      · cases h
        exact ⟨found.2, rfl⟩
      · cases h

/-- What stands in the text of a value in front of a character that is not ASCII is no value. -/
theorem read_front {l : Layout} (hl : l.Lawful) {j : Json} (hwell : j.wellFormed = true)
    (hshows : l.Shows j.allFinite) {front back : List Char} {c : Char}
    (heq : write l j = front ++ c :: back) (hc : 0x7f < c.toNat) :
    ∃ e, read front = .error e := by
  have hforeign : Foreign (c :: back) := ⟨c, back, rfl, hc⟩
  have hwhole := reads_writeAt hl 0 j hwell hshows (2 * (write l j).length + 2) []
    (by rw [← write]; omega) (by simp [NoNumber])
  have hbegins : Begins (write l j) := begins_writeAt 0 j hshows
  rw [List.append_nil, ← write] at hwhole
  cases hread : readDocument front with
  | error stop =>
    rw [read, hread]
    cases stop <;> exact ⟨_, rfl⟩
  | ok v =>
    obtain ⟨rest, hvalue⟩ := readValue_of_readDocument hread
    have hlength : 2 * front.length + 2 ≤ 2 * (write l j).length + 2 := by
      rw [heq, List.length_append]
      omega
    have hmore := (reads_extend hforeign hlength).1 (skipSpace front) v rest hvalue
    rw [← skipSpace_append_foreign hforeign, ← heq, hbegins.skipSpace, hwhole] at hmore
    have hrest : [] = rest ++ c :: back := congrArg Prod.snd (Except.ok.inj hmore)
    simp at hrest

end Sluice.Json
