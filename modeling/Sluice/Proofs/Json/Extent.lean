import Mathlib.Data.List.TakeWhile
import Sluice.Proofs.Json.Characters
import Sluice.Proofs.Json.Lengthening

/-!
How far a value extends. What is read from the front of a text is read from that piece alone,
whatever else follows it, and the piece begins and ends with something to be seen. So the blanks
around a value are no part of it, and a text without them is read as the same value, even where more
characters count as blanks than JSON has for them.
-/

namespace Sluice.Json

theorem skipSpace_split (cs : List Char) :
    ∃ blanks, cs = blanks ++ skipSpace cs ∧ ∀ c ∈ blanks, isSpace c = true :=
  ⟨cs.takeWhile isSpace, List.takeWhile_append_dropWhile.symm, fun _ => List.mem_takeWhile_imp⟩

section

variable {α β : Type} {r : Except Stop (α × List Char)}

theorem exists_of_map {f : α → β} {b : β} {rest : List Char}
    (h : (r.map fun (a, rest) => (f a, rest)) = .ok (b, rest)) :
    ∃ a, r = .ok (a, rest) ∧ f a = b := by
  cases r with
  | error stop => cases h
  | ok found =>
    cases h
    exact ⟨found.1, rfl, rfl⟩

theorem exists_of_bind {f : α × List Char → Except Stop β} {b : β} (h : (r >>= f) = .ok b) :
    ∃ a rest, r = .ok (a, rest) ∧ f (a, rest) = .ok b := by
  cases r with
  | error stop => cases h
  | ok found => exact ⟨found.1, found.2, rfl, h⟩

end

/-- What is read inside a string is read from the text up to the closing quote. -/
def EndsAtQuote (place : Place) (cs : List Char) (r : Read (List Char)) : Prop :=
  ∀ chars rest, r = .ok (chars, rest) → ∃ core, cs = core ++ '"' :: rest ∧
    ∀ start more, readChars start place (core ++ '"' :: more) = .ok (chars, more)

section

variable {place place' : Place} {c : Char} {cs : List Char} {r : Read (List Char)}

theorem endsAtQuote_error (stop : Stop) : EndsAtQuote place cs (.error stop) := by
  intro chars rest h
  cases h

theorem endsAtQuote_quote {chars : List Char}
    (h : ∀ start more, readChars start place ('"' :: more) = .ok (chars, more)) (rest : List Char) :
    EndsAtQuote place ('"' :: rest) (.ok (chars, rest)) := by
  rintro chars rest ⟨⟩
  exact ⟨[], rfl, h⟩

theorem EndsAtQuote.cons (h : EndsAtQuote place' cs r)
    (hstep : ∀ start more, readChars start place (c :: more) = readChars start place' more) :
    EndsAtQuote place (c :: cs) r := by
  intro chars rest hr
  obtain ⟨core, rfl, hcore⟩ := h chars rest hr
  exact ⟨c :: core, rfl, fun start more => (hstep start _).trans (hcore start more)⟩

theorem EndsAtQuote.push {front : List Char} (h : EndsAtQuote place' cs r)
    (hstep : ∀ start more, readChars start place (c :: more) =
      readChars.push front (readChars start place' more)) :
    EndsAtQuote place (c :: cs) (readChars.push front r) := by
  intro chars rest hr
  cases r with
  | error stop => cases hr
  | ok found =>
    cases hr
    obtain ⟨core, rfl, hcore⟩ := h found.1 found.2 rfl
    refine ⟨c :: core, rfl, fun start more => ?_⟩
    rw [List.cons_append, hstep, hcore, push_ok]

end

theorem endsAtQuote_readChars (start : List Char) (place : Place) (cs : List Char) :
    EndsAtQuote place cs (readChars start place cs) := by
  -- The first group are faults.
  fun_induction readChars start place cs with
  | case1 | case2 | case3 | case4 | case7 | case8 | case13 | case17 => exact endsAtQuote_error _
  | case5 high rest ih => exact ih.cons fun _ _ => by rw [readChars, if_pos rfl]
  | case6 high c rest hu x hx ih => exact ih.push fun _ _ => by rw [readChars, if_neg hu, hx]
  | case9 value high c rest d hd chars place hcode ih =>
    refine ih.push fun _ _ => ?_
    rw [readChars, hd]
    simp only [↓reduceIte, hcode]
  | case10 owed value high c rest d hd howed ih =>
    refine ih.cons fun _ _ => ?_
    rw [readChars, hd]
    simp only [if_neg howed]
  | case11 rest => exact endsAtQuote_quote (fun _ _ => by rw [readChars, if_pos rfl]) rest
  | case12 rest hquote ih =>
    exact ih.cons fun _ _ => by rw [readChars, if_neg hquote, if_pos rfl]
  | case14 c rest hquote hslash hcontrol ih =>
    refine ih.push fun _ _ => ?_
    rw [readChars, if_neg hquote, if_neg hslash, if_neg hcontrol]
  | case15 high rest =>
    exact endsAtQuote_quote (fun _ _ => by rw [readChars, if_pos rfl]) rest
  | case16 high rest hquote ih =>
    exact ih.cons fun _ _ => by rw [readChars, if_neg hquote, if_pos rfl]
  | case18 high c rest hquote hslash hcontrol ih =>
    refine ih.push fun _ _ => ?_
    rw [readChars, if_neg hquote, if_neg hslash, if_neg hcontrol]

theorem readString_extent {start cs rest : List Char} {s : String}
    (h : readString start cs = .ok (s, rest)) :
    ∃ core, cs = core ++ '"' :: rest ∧ ReadsString ('"' :: (core ++ ['"'])) s := by
  obtain ⟨chars, hchars, rfl⟩ := exists_of_map h
  obtain ⟨core, hcs, hcore⟩ := endsAtQuote_readChars start .plain cs _ _ hchars
  refine ⟨core, hcs, _, rfl, fun start' more => ?_⟩
  rw [List.append_assoc, List.singleton_append, readString, hcore]
  rfl

theorem readWhole_extent {cs whole rest : List Char} (h : readWhole cs = some (whole, rest)) :
    cs = whole ++ rest ∧ IsWhole whole := by
  unfold readWhole at h
  split at h
  · cases h
    exact ⟨rfl, .zero⟩
  · rename_i d cs hzero
    split at h
    · rename_i hd
      cases h
      refine ⟨?_, .digits hd hzero fun _ => List.mem_takeWhile_imp⟩
      rw [List.cons_append, List.takeWhile_append_dropWhile]
    · cases h
  · cases h

/-- A text that does not go on with the digits or the point of a number, but perhaps with an
exponent. -/
def NoFraction (rest : List Char) : Prop :=
  ∀ c ∈ rest.head?, isDigit c = false ∧ c ≠ '.'

theorem NoNumber.noFraction {rest : List Char} (h : NoNumber rest) : NoFraction rest :=
  fun c hc => ⟨(h c hc).1, (h c hc).2.1⟩

theorem NoFraction.noDigit {rest : List Char} (h : NoFraction rest) : NoDigit rest :=
  fun c hc => (h c hc).1

/-- The text of a fraction with its point, and its digits: nothing, or at least one digit. -/
inductive IsFraction : List Char → List Char → Prop where
  | none : IsFraction [] []
  | point {digits : List Char} (hne : digits ≠ []) (hdigits : Digits digits) :
      IsFraction ('.' :: digits) digits

theorem IsFraction.noDigit {text digits rest : List Char} (h : IsFraction text digits)
    (hrest : NoDigit rest) : NoDigit (text ++ rest) := by
  cases h with
  | none => exact hrest
  | point =>
    rintro c ⟨⟩
    rfl

theorem IsFraction.read {text digits rest : List Char} (h : IsFraction text digits)
    (hrest : NoFraction rest) : readFraction (text ++ rest) = (digits, rest) := by
  cases h with
  | none => exact readFraction_none fun c hc => (hrest c hc).2
  | point hne hdigits => exact readFraction_point hne hdigits hrest.noDigit

theorem readFraction_extent (cs : List Char) :
    ∃ text, cs = text ++ (readFraction cs).2 ∧ IsFraction text (readFraction cs).1 := by
  unfold readFraction
  split
  · rename_i d rest
    split
    · rename_i hd
      have hdigits : Digits (d :: rest.takeWhile isDigit) :=
        List.forall_mem_cons.mpr ⟨hd, fun _ => List.mem_takeWhile_imp⟩
      exact ⟨_, by simp, .point (List.cons_ne_nil _ _) hdigits⟩
    · exact ⟨[], rfl, .none⟩
  · exact ⟨[], rfl, .none⟩

def EndsInDigits (cs : List Char) : Prop :=
  ∃ front digits, cs = front ++ digits ∧ digits ≠ [] ∧ Digits digits

theorem EndsInDigits.prepend {cs : List Char} (h : EndsInDigits cs) (front : List Char) :
    EndsInDigits (front ++ cs) := by
  obtain ⟨more, digits, rfl, h⟩ := h
  exact ⟨front ++ more, digits, (List.append_assoc _ _ _).symm, h⟩

theorem IsWhole.endsInDigits {whole : List Char} (h : IsWhole whole) : EndsInDigits whole := by
  cases h with
  | zero => exact ⟨[], ['0'], rfl, List.cons_ne_nil _ _, digits_zeros 1⟩
  | digits hd _ hds =>
    exact ⟨[], _, rfl, List.cons_ne_nil _ _, List.forall_mem_cons.mpr ⟨hd, hds⟩⟩

theorem IsFraction.endsInDigits {text digits whole : List Char} (h : IsFraction text digits)
    (hwhole : EndsInDigits whole) : EndsInDigits (whole ++ text) := by
  cases h with
  | none => rwa [List.append_nil]
  | point hne hdigits => exact ⟨whole ++ ['.'], digits, by simp, hne, hdigits⟩

theorem readExponentDigits_extent {cs rest : List Char} {n : Nat}
    (h : readExponentDigits cs = some (n, rest)) :
    ∃ digits, cs = digits ++ rest ∧ digits ≠ [] ∧ Digits digits ∧ digitsValue digits = n := by
  simp only [readExponentDigits] at h
  split at h
  · cases h
  · rename_i hne
    cases h
    refine ⟨_, List.takeWhile_append_dropWhile.symm, ?_, fun _ => List.mem_takeWhile_imp, rfl⟩
    simpa using hne

theorem noFraction_mark {mark : Char} (h : mark = 'e' ∨ mark = 'E') (cs : List Char) :
    NoFraction (mark :: cs) := by
  rintro c ⟨⟩
  rcases h with rfl | rfl <;> decide

/-- The digits of an exponent, with what stands in front of them. -/
theorem exponentDigits_extent (front : List Char) {tail rest : List Char} {e : Int} {f : Nat → Int}
    (hread : ((readExponentDigits tail).map fun (n, after) => (f n, after)) = some (e, rest))
    (hfront : ∀ more, NoFraction (front ++ more))
    (hstep : ∀ digits more, digits ≠ [] → Digits digits → readExponent (front ++ (digits ++ more)) =
      (readExponentDigits (digits ++ more)).map fun (n, after) => (f n, after)) :
    ∃ exponent, front ++ tail = exponent ++ rest ∧ EndsInDigits exponent ∧
      ∀ more, NoDigit more →
        NoFraction (exponent ++ more) ∧ readExponent (exponent ++ more) = some (e, more) := by
  obtain ⟨⟨n, after⟩, hdigits, heq⟩ := Option.map_eq_some_iff.mp hread
  cases heq
  obtain ⟨digits, rfl, hne, hall, rfl⟩ := readExponentDigits_extent hdigits
  refine ⟨front ++ digits, (List.append_assoc _ _ _).symm, ⟨front, digits, rfl, hne, hall⟩,
    fun more hmore => ?_⟩
  rw [List.append_assoc, hstep digits more hne hall, readExponentDigits_append hne hall hmore]
  exact ⟨hfront _, rfl⟩

theorem readExponent_extent {cs rest : List Char} {e : Int} (h : readExponent cs = some (e, rest)) :
    ∃ exponent, cs = exponent ++ rest ∧ EndsInDigits exponent ∧
      ∀ more, NoDigit more →
        NoFraction (exponent ++ more) ∧ readExponent (exponent ++ more) = some (e, more) := by
  unfold readExponent at h
  split at h
  · rename_i mark cs
    split at h
    · rename_i hmark
      have hfront (front more : List Char) : NoFraction (mark :: front ++ more) :=
        noFraction_mark hmark _
      split at h
      · rename_i tail
        refine exponentDigits_extent [mark, '-'] (f := fun n => -(n : Int)) h (hfront _)
          fun digits more _ _ => ?_
        simp only [List.cons_append, List.nil_append, readExponent, if_pos hmark]
      · rename_i tail
        refine exponentDigits_extent [mark, '+'] (f := fun n => (n : Int)) h (hfront _)
          fun digits more _ _ => ?_
        simp only [List.cons_append, List.nil_append, readExponent, if_pos hmark]
      · refine exponentDigits_extent [mark] (f := fun n => (n : Int)) h (hfront _)
          fun digits more hne hall => ?_
        -- A digit is no sign.
        refine readExponent_unsigned hmark fun c hc => ?_
        obtain ⟨d, ds, rfl⟩ := List.exists_cons_of_ne_nil hne
        obtain rfl : d = c := Option.some.inj hc
        have hd : isDigit d = true := hall d List.mem_cons_self
        constructor <;>
          · rintro rfl
            cases hd
    · cases h
  · cases h

/-- A number after its sign is read from its own text, which begins and ends with digits. -/
theorem readUnsigned_extent {negative : Bool} {cs rest : List Char} {j : Json}
    (h : readUnsigned negative cs = .ok (j, rest)) :
    ∃ core, cs = core ++ rest ∧ (∃ d ds, core = d :: ds ∧ isDigit d = true) ∧ EndsInDigits core ∧
      ∀ more, NoNumber more → readUnsigned negative (core ++ more) = .ok (j, more) := by
  unfold readUnsigned at h
  cases hwhole : readWhole cs with
  | none =>
    rw [hwhole] at h
    cases h
  | some parts =>
    -- The text is taken apart into the whole part, the fraction and the exponent, if there is one.
    obtain ⟨whole, tail⟩ := parts
    obtain ⟨rfl, hisWhole⟩ := readWhole_extent hwhole
    obtain ⟨point, htail, hfraction⟩ := readFraction_extent tail
    rw [hwhole] at h
    simp only at h
    generalize (readFraction tail).1 = fraction at *
    generalize (readFraction tail).2 = tail' at *
    subst htail
    have hfront := hfraction.endsInDigits hisWhole.endsInDigits
    obtain ⟨d, ds, hds, hd⟩ := hisWhole.cons
    -- The parts are found again in front of whatever does not go on with one of them.
    have hparts {more : List Char} (hmore : NoFraction more) :
        readWhole (whole ++ (point ++ more)) = some (whole, point ++ more) ∧
          readFraction (point ++ more) = (fraction, more) :=
      ⟨hisWhole.read (hfraction.noDigit hmore.noDigit), hfraction.read hmore⟩
    cases hexponent : readExponent tail' with
    | some found =>
      obtain ⟨e, after⟩ := found
      rw [hexponent] at h
      cases h
      obtain ⟨exponent, rfl, hends, hread⟩ := readExponent_extent hexponent
      refine ⟨whole ++ (point ++ exponent), by simp, ⟨d, _, by rw [hds]; rfl, hd⟩,
        (hends.prepend point).prepend whole, fun more hmore => ?_⟩
      obtain ⟨hmark, hagain⟩ := hread more hmore.noDigit
      obtain ⟨hwhole', hfraction'⟩ := hparts hmark
      rw [List.append_assoc, List.append_assoc, readUnsigned, hwhole']
      simp only [hfraction', hagain]
    | none =>
      rw [hexponent] at h
      simp only at h
      have hrest : tail' = rest ∧ ∀ more, NoNumber more →
          readUnsigned negative (whole ++ (point ++ more)) = .ok (j, more) := by
        split at h
        · rename_i hne
          cases h
          refine ⟨rfl, fun more hmore => ?_⟩
          obtain ⟨hwhole', hfraction'⟩ := hparts hmore.noFraction
          simp only [readUnsigned, hwhole', hfraction', readExponent_none hmore, if_pos hne]
        · rename_i hnone
          split at h
          · cases h
          · rename_i hshort
            cases h
            refine ⟨rfl, fun more hmore => ?_⟩
            obtain ⟨hwhole', hfraction'⟩ := hparts hmore.noFraction
            simp only [readUnsigned, hwhole', hfraction', readExponent_none hmore, if_neg hnone,
              if_neg hshort]
      obtain ⟨rfl, hagain⟩ := hrest
      refine ⟨whole ++ point, by simp, ⟨d, _, by rw [hds]; rfl, hd⟩, hfront, fun more hmore => ?_⟩
      rw [List.append_assoc, hagain more hmore]

/-- A text that is read as a value, whatever follows it, and has something to be seen at both ends. -/
structure Spells (cs : List Char) (j : Json) : Prop where
  reads : Reads cs j
  begins : Begins cs
  opens : Opens cs
  closes : Opens cs.reverse

theorem opens_digit {d : Char} (h : isDigit d = true) (cs : List Char) : Opens (d :: cs) :=
  opens_numeric ⟨false, d, cs, rfl, h⟩

theorem EndsInDigits.closes {cs : List Char} (h : EndsInDigits cs) : Opens cs.reverse := by
  obtain ⟨front, digits, rfl, hne, hdigits⟩ := h
  obtain ⟨ds, d, rfl⟩ := (List.eq_nil_or_concat digits).resolve_left hne
  rw [List.concat_eq_append, List.reverse_append, List.reverse_concat]
  exact opens_digit (hdigits d (by simp)) _

theorem readNumber_extent {cs rest : List Char} {j : Json} (h : readNumber cs = .ok (j, rest)) :
    ∃ core, cs = core ++ rest ∧ Spells core j := by
  -- The sign, if there is one, stands in front of what is read without it.
  have hsigned {negative : Bool} {cs : List Char} (h : readUnsigned negative cs = .ok (j, rest)) :
      ∃ core, signed negative cs = core ++ rest ∧ Spells core j := by
    obtain ⟨core, rfl, ⟨d, ds, rfl, hd⟩, hends, hread⟩ := readUnsigned_extent h
    have hnumeric : Numeric (signed negative (d :: ds)) := ⟨negative, d, ds, rfl, hd⟩
    have hends' : EndsInDigits (signed negative (d :: ds)) := by
      cases negative with
      | false => exact hends
      | true => exact hends.prepend ['-']
    refine ⟨signed negative (d :: ds), (signed_append _ _ _).symm, ?_, begins_numeric hnumeric,
      opens_numeric hnumeric, hends'.closes⟩
    refine hnumeric.reads fun more hmore => ?_
    rw [signed_append, List.cons_append, readNumber_signed negative hd]
    exact hread more hmore
  unfold readNumber at h
  split at h
  · exact hsigned h
  · exact hsigned h

theorem spells_word {word : List Char} {j : Json} (h : (word, j) ∈ words) : Spells word j := by
  refine ⟨reads_word h, begins_word h, ?_, ?_⟩
  all_goals
    simp only [words, List.mem_cons, List.not_mem_nil, or_false, Prod.mk.injEq] at h
    rcases h with h | h | h | h | h | h <;>
      · obtain ⟨rfl, -⟩ := h
        exact ⟨_, _, rfl, by decide, by decide⟩

/-- Strings, arrays and objects stand between two marks. -/
theorem Reads.spells {first last : Char} {body : List Char} {j : Json}
    (h : Reads (first :: (body ++ [last])) j)
    (hfirst : first = '"' ∨ first = '[' ∨ first = '\x7b')
    (hlast : last = '"' ∨ last = ']' ∨ last = '\x7d') : Spells (first :: (body ++ [last])) j := by
  refine ⟨h, ?_, ⟨first, _, rfl, ?_⟩, ⟨last, body.reverse ++ [first], by simp, ?_⟩⟩
  · rcases hfirst with rfl | rfl | rfl <;> exact begins_cons (by decide) _
  · rcases hfirst with rfl | rfl | rfl <;> decide
  · rcases hlast with rfl | rfl | rfl <;> decide

section Step

/-- What a reader of values takes from the front of a text spells the value. -/
def TakesValue (fuel : Nat) : Prop :=
  ∀ cs j rest, readValue fuel cs = .ok (j, rest) → ∃ core, cs = core ++ rest ∧ Spells core j

def TakesElements (fuel : Nat) : Prop :=
  ∀ cs xs rest, readElements fuel cs = .ok (xs, rest) →
    ∃ body, cs = body ++ ']' :: rest ∧ Begins body ∧ ReadsElements (body ++ [']']) xs

def TakesMembers (fuel : Nat) : Prop :=
  ∀ cs ms rest, readMembers fuel cs = .ok (ms, rest) →
    ∃ body, cs = body ++ '\x7d' :: rest ∧ Begins body ∧ ReadsMembers (body ++ ['\x7d']) ms

variable {fuel : Nat}

theorem takes_array (helements : TakesElements fuel) {cs rest : List Char} {j : Json}
    (h : readValue (fuel + 1) ('[' :: cs) = .ok (j, rest)) :
    ∃ core, '[' :: cs = core ++ rest ∧ Spells core j := by
  obtain ⟨blanks, hcs, hblanks⟩ := skipSpace_split cs
  rw [readValue] at h
  split at h
  · rename_i heq
    rw [heq] at hcs
    cases h
    refine ⟨'[' :: (blanks ++ [']']), by simp [hcs], ?_⟩
    exact (reads_arr_nil hblanks).spells (by simp) (by simp)
  · obtain ⟨xs, hread, rfl⟩ := exists_of_map h
    obtain ⟨body, hbody, hbegins, hxs⟩ := helements _ _ _ hread
    have hreads := hxs.reads (hbegins.append _) hblanks
    rw [List.cons_append, ← List.append_assoc] at hreads
    refine ⟨_, ?_, hreads.spells (by simp) (by simp)⟩
    rw [hcs, hbody]
    simp

theorem takes_object (hmembers : TakesMembers fuel) {cs rest : List Char} {j : Json}
    (h : readValue (fuel + 1) ('\x7b' :: cs) = .ok (j, rest)) :
    ∃ core, '\x7b' :: cs = core ++ rest ∧ Spells core j := by
  obtain ⟨blanks, hcs, hblanks⟩ := skipSpace_split cs
  rw [readValue] at h
  split at h
  · rename_i heq
    rw [heq] at hcs
    cases h
    refine ⟨'\x7b' :: (blanks ++ ['\x7d']), by simp [hcs], ?_⟩
    exact (reads_obj_nil hblanks).spells (by simp) (by simp)
  · obtain ⟨ms, hread, rfl⟩ := exists_of_map (f := fun ms => obj (distinct ms)) h
    obtain ⟨body, hbody, hbegins, hms⟩ := hmembers _ _ _ hread
    have hreads := hms.reads (hbegins.append _) hblanks
    rw [List.cons_append, ← List.append_assoc] at hreads
    refine ⟨_, ?_, hreads.spells (by simp) (by simp)⟩
    rw [hcs, hbody]
    simp

theorem takesValue_succ (helements : TakesElements fuel) (hmembers : TakesMembers fuel) :
    TakesValue (fuel + 1) := by
  intro cs j rest h
  unfold readValue at h
  split at h
  · obtain ⟨s, hread, rfl⟩ := exists_of_map h
    obtain ⟨body, hbody, hstring⟩ := readString_extent hread
    exact ⟨_, by simp [hbody], hstring.reads.spells (by simp) (by simp)⟩
  · exact takes_array helements (by rw [readValue]; exact h)
  · exact takes_object hmembers (by rw [readValue]; exact h)
  · split at h
    · rename_i hword
      cases h
      obtain ⟨word, hmem, rfl⟩ := word_of_readWord? hword
      exact ⟨word, rfl, spells_word hmem⟩
    · exact readNumber_extent h

theorem takesElements_succ (hvalue : TakesValue fuel) (helements : TakesElements fuel) :
    TakesElements (fuel + 1) := by
  intro cs xs rest h
  rw [readElements] at h
  obtain ⟨x, after, hread, hend⟩ := exists_of_bind h
  obtain ⟨core, rfl, hcore⟩ := hvalue _ _ _ hread
  obtain ⟨gap, hafter, hgap⟩ := skipSpace_split after
  simp only at hend
  split at hend
  · rename_i heq
    rw [heq] at hafter
    cases hend
    refine ⟨core ++ gap, by simp [hafter], hcore.begins.append _, ?_⟩
    rw [List.append_assoc]
    exact hcore.reads.last_element hgap
  · rename_i more heq
    rw [heq] at hafter
    obtain ⟨ys, _, hmoreRead, heq⟩ := exists_of_bind hend
    cases heq
    obtain ⟨blanks, hmore, hblanks⟩ := skipSpace_split more
    obtain ⟨body, hbody, hbegins, hys⟩ := helements _ _ _ hmoreRead
    rw [hbody] at hmore
    refine ⟨core ++ (gap ++ ',' :: (blanks ++ body)), by simp [hafter, hmore],
      hcore.begins.append _, ?_⟩
    have hreads := hcore.reads.more_elements hgap hblanks (hbegins.append _) hys
    simpa only [List.append_assoc, List.cons_append] using hreads
  · cases hend

theorem takesMembers_succ (hvalue : TakesValue fuel) (hmembers : TakesMembers fuel) :
    TakesMembers (fuel + 1) := by
  intro cs ms rest h
  unfold readMembers at h
  split at h
  case h_2 => cases h
  case h_1 text =>
    obtain ⟨name, afterKey, hname, hend⟩ := exists_of_bind h
    obtain ⟨key, rfl, hkey⟩ := readString_extent hname
    obtain ⟨gap, hafterKey, hgap⟩ := skipSpace_split afterKey
    simp only at hend
    split at hend
    case h_2 => cases hend
    case h_1 afterColon heq =>
      rw [heq] at hafterKey
      obtain ⟨x, after, hread, hend⟩ := exists_of_bind hend
      obtain ⟨colon, hafterColon, hcolon⟩ := skipSpace_split afterColon
      obtain ⟨core, hcore, hspells⟩ := hvalue _ _ _ hread
      obtain ⟨gap', hafter, hgap'⟩ := skipSpace_split after
      rw [hcore] at hafterColon
      -- The member up to the end of its value. A brace or a comma follows it.
      let front := memberText ('"' :: (key ++ ['"'])) gap colon core
      have hfront : '"' :: (key ++ '"' :: afterKey) = front ++ after := by
        simp [front, memberText, hafterKey, hafterColon]
      have hquote : Begins front := begins_quote _
      rw [hfront]
      simp only at hend
      split at hend
      · rename_i heq
        rw [heq] at hafter
        cases hend
        refine ⟨front ++ gap', by simp [hafter], hquote.append _, ?_⟩
        rw [List.append_assoc]
        exact hspells.reads.last_member hspells.begins hkey hgap hcolon hgap'
      · rename_i more heq
        rw [heq] at hafter
        obtain ⟨members, _, hmoreRead, heq⟩ := exists_of_bind hend
        cases heq
        obtain ⟨blanks, hmore, hblanks⟩ := skipSpace_split more
        obtain ⟨body, hbody, hbegins, hbodyReads⟩ := hmembers _ _ _ hmoreRead
        rw [hbody] at hmore
        refine ⟨front ++ (gap' ++ ',' :: (blanks ++ body)), by simp [hafter, hmore],
          hquote.append _, ?_⟩
        have hreads := hspells.reads.more_members hspells.begins hkey hgap hcolon hgap' hblanks
          (hbegins.append _) hbodyReads
        simpa only [List.append_assoc, List.cons_append] using hreads
      · cases hend

/-- The three readers take what they read from the front, by the fuel that they are given. -/
theorem takes (fuel : Nat) : TakesValue fuel ∧ TakesElements fuel ∧ TakesMembers fuel := by
  induction fuel with
  | zero => exact ⟨nofun, nofun, nofun⟩
  | succ fuel ih =>
    obtain ⟨hvalue, helements, hmembers⟩ := ih
    exact ⟨takesValue_succ helements hmembers, takesElements_succ hvalue helements,
      takesMembers_succ hvalue hmembers⟩

end Step

/-- A text that is read as a value is the text of that value with blanks around it. -/
theorem spells_of_read {t : List Char} {j : Json} (h : read t = .ok j) :
    ∃ before core after, t = before ++ (core ++ after) ∧ Spells core j ∧
      (∀ c ∈ before, isSpace c = true) ∧ ∀ c ∈ after, isSpace c = true := by
  have hdocument : readDocument t = .ok j := by
    unfold read at h
    split at h
    · rename_i hdocument
      cases h
      exact hdocument
    · cases h
    · cases h
  unfold readDocument at hdocument
  split at hdocument
  · cases hdocument
  · obtain ⟨value, after, hread, hend⟩ := exists_of_bind hdocument
    obtain ⟨before, ht, hbefore⟩ := skipSpace_split t
    obtain ⟨core, hcore, hspells⟩ := (takes _).1 _ _ _ hread
    obtain ⟨blanks, hafter, hblanks⟩ := skipSpace_split after
    simp only at hend
    split at hend
    · rename_i hnil
      cases hend
      rw [hnil, List.append_nil] at hafter
      exact ⟨before, core, after, by rw [← hcore, ← ht], hspells, hbefore, hafter ▸ hblanks⟩
    · cases hend

theorem Spells.read {cs : List Char} {j : Json} (h : Spells cs j) : read cs = .ok j := by
  have hstop : NoNumber [] := by simp [NoNumber]
  have hread := h.reads (2 * cs.length + 2) [] (by omega) hstop
  rw [List.append_nil] at hread
  have hdocument : readDocument cs = .ok j := by
    unfold readDocument
    split
    · exact absurd rfl (h.begins.ne_mark _)
    · rw [h.begins.skipSpace, hread]
      rfl
  rw [Json.read, hdocument]

theorem isBlank_of_isSpace {c : Char} (h : isSpace c = true) : Text.isBlank c = true := by
  simp only [isSpace, Bool.or_eq_true, beq_iff_eq] at h
  rcases h with ((rfl | rfl) | rfl) | rfl <;> decide

theorem Opens.dropWhile {cs blanks : List Char} (h : Opens cs)
    (hblanks : ∀ c ∈ blanks, isSpace c = true) : (blanks ++ cs).dropWhile Text.isBlank = cs := by
  obtain ⟨c, t, rfl, hc, hne⟩ := h
  rw [List.dropWhile_append_of_pos fun c hc => isBlank_of_isSpace (hblanks c hc),
    List.dropWhile_cons_of_neg (by simp [Text.isBlank_of_printed hc hne])]

theorem trim_spells {before core after : List Char} {j : Json} (h : Spells core j)
    (hbefore : ∀ c ∈ before, isSpace c = true) (hafter : ∀ c ∈ after, isSpace c = true) :
    Text.trim (before ++ (core ++ after)) = core := by
  obtain ⟨c, t, hct, hc⟩ := h.opens
  have hopens : Opens (core ++ after) := ⟨c, t ++ after, by rw [hct, List.cons_append], hc⟩
  have hreverse : ∀ c ∈ after.reverse, isSpace c = true :=
    fun c hc => hafter c (List.mem_reverse.mp hc)
  rw [Text.trim, Text.trimOf, hopens.dropWhile hbefore, List.reverse_append,
    h.closes.dropWhile hreverse, List.reverse_reverse]

/-- Taking the blanks away at both ends of a text does not change what is read from it, and leaves
something to be read. -/
theorem read_trim {t : List Char} {j : Json} (h : read t = .ok j) :
    read (Text.trim t) = .ok j ∧ Text.trim t ≠ [] := by
  obtain ⟨before, core, after, rfl, hspells, hbefore, hafter⟩ := spells_of_read h
  rw [trim_spells hspells hbefore hafter]
  refine ⟨hspells.read, ?_⟩
  obtain ⟨c, t, rfl, -⟩ := hspells.opens
  exact List.cons_ne_nil c t

/-- There is something to be seen in a text that is read. -/
theorem not_blank_of_read {t : List Char} {j : Json} (h : read t = .ok j) :
    Text.isBlankText t = false := by
  obtain ⟨before, core, after, rfl, hspells, -, -⟩ := spells_of_read h
  have hcore : core.all Text.isBlank = false := hspells.opens.not_blank
  rw [Text.isBlankText, List.all_append, List.all_append, hcore, Bool.false_and, Bool.and_false]

end Sluice.Json
