import Sluice.Json.Depth
import Sluice.Proofs.Json.Limits
import Sluice.Proofs.Json.RoundTrip

/-!
Room for written values. The text of a value opens no more arrays and objects inside one another than
the value has levels, so a reader with room for these does not stop in it.
-/

namespace Sluice.Json

/-- In a text, with whatever behind it, there is no array and no object too many. -/
def Fits (room : Nat) (cs : List Char) : Prop :=
  ∀ fuel rest, cs.length ≤ fuel → overflow? room fuel (cs ++ rest) = none

def FitsElements (room : Nat) (cs : List Char) : Prop :=
  ∀ fuel rest, cs.length ≤ fuel → overflowElements? room fuel (cs ++ rest) = none

def FitsMembers (room : Nat) (cs : List Char) : Prop :=
  ∀ fuel rest, cs.length ≤ fuel → overflowMembers? room fuel (cs ++ rest) = none

/-- Only a bracket and a brace open something. -/
theorem overflow?_cons {c : Char} (hbracket : c ≠ '[') (hbrace : c ≠ '\x7b') (room fuel : Nat)
    (cs : List Char) : overflow? room fuel (c :: cs) = none := by
  cases fuel with
  | zero => rfl
  | succ fuel =>
    cases room with
    | zero => simp [overflow?, hbracket, hbrace]
    | succ room => simp [overflow?, hbracket, hbrace]

theorem fits_of_head {c : Char} (hbracket : c ≠ '[') (hbrace : c ≠ '\x7b') (room : Nat)
    (cs : List Char) : Fits room (c :: cs) :=
  fun fuel rest _ => overflow?_cons hbracket hbrace room fuel (cs ++ rest)

/-- Of more brackets than there is room for, one is too many. -/
theorem overflow?_brackets {room fuel n : Nat} (hroom : room < n) (hfuel : 2 * n ≤ fuel) :
    overflow? room fuel (List.replicate n '[') = some .array := by
  induction room generalizing fuel n with
  | zero =>
    obtain ⟨n, rfl⟩ := Nat.exists_eq_succ_of_ne_zero (Nat.ne_of_gt hroom)
    obtain ⟨fuel, rfl⟩ := Nat.exists_eq_succ_of_ne_zero (show fuel ≠ 0 by omega)
    rfl
  | succ room ih =>
    obtain ⟨n, rfl⟩ := Nat.exists_eq_succ_of_ne_zero (Nat.ne_of_gt (Nat.zero_lt_of_lt hroom))
    obtain ⟨fuel, rfl⟩ := Nat.exists_eq_add_of_le (show 2 ≤ fuel by omega)
    have hskip : skipSpace (List.replicate n '[') = List.replicate n '[' := by
      cases n with
      | zero => rfl
      | succ n => exact skipSpace_cons (by rfl) _
    have hdeeper : overflow? room fuel (List.replicate n '[') = some .array :=
      ih (by omega) (by omega)
    rw [Nat.add_comm 2, List.replicate_succ, overflow?, hskip, overflowElements?, hdeeper]
    rfl

variable {room : Nat} {cs ds gap blanks : List Char} {x : Json}

theorem FitsElements.fits (h : FitsElements room cs) (hbegins : Begins cs)
    (hblanks : ∀ c ∈ blanks, isSpace c = true) : Fits (room + 1) ('[' :: blanks ++ cs) := by
  intro fuel rest hfuel
  cases fuel with
  | zero => rfl
  | succ fuel =>
    have hlength : cs.length ≤ fuel := by
      simp only [List.length_append, List.length_cons] at hfuel
      omega
    rw [List.append_assoc, List.cons_append, overflow?, skipSpace_append hblanks,
      (hbegins.append rest).skipSpace]
    exact h fuel rest hlength

theorem Fits.last_element (h : Fits room cs) (hreads : Reads cs x)
    (hblanks : ∀ c ∈ blanks, isSpace c = true) :
    FitsElements room (cs ++ (blanks ++ [']'])) := by
  intro fuel rest hfuel
  cases fuel with
  | zero => rfl
  | succ fuel =>
    have hlength : cs.length ≤ fuel := by
      simp only [List.length_append, List.length_singleton] at hfuel
      omega
    have hstop : NoNumber (blanks ++ (']' :: rest)) :=
      noNumber_blanks hblanks (by simp [NoNumber, isDigit])
    rw [List.append_assoc, List.append_assoc, List.singleton_append, overflowElements?,
      h fuel _ hlength, hreads fuel _ hlength hstop]
    simp [skipSpace_append hblanks, skipSpace_cons (show isSpace ']' = false by rfl)]

theorem Fits.more_elements (h : Fits room cs) (hreads : Reads cs x)
    (hgap : ∀ c ∈ gap, isSpace c = true) (hblanks : ∀ c ∈ blanks, isSpace c = true)
    (hbegins : Begins ds) (hmore : FitsElements room ds) :
    FitsElements room (cs ++ (gap ++ ',' :: (blanks ++ ds))) := by
  intro fuel rest hfuel
  cases fuel with
  | zero => rfl
  | succ fuel =>
    have hlength : cs.length ≤ fuel ∧ ds.length ≤ fuel := by
      simp only [List.length_append, List.length_cons] at hfuel
      omega
    have hstop : NoNumber (gap ++ ',' :: (blanks ++ (ds ++ rest))) :=
      noNumber_blanks hgap (by simp [NoNumber, isDigit])
    have hskip : skipSpace (blanks ++ (ds ++ rest)) = ds ++ rest := by
      rw [skipSpace_append hblanks, (hbegins.append rest).skipSpace]
    rw [List.append_assoc, List.append_assoc, List.cons_append, List.append_assoc,
      overflowElements?, h fuel _ hlength.1, hreads fuel _ hlength.1 hstop]
    simp [skipSpace_append hgap, skipSpace_cons (show isSpace ',' = false by rfl), hskip,
      hmore fuel rest hlength.2]

theorem FitsMembers.fits (h : FitsMembers room cs) (hbegins : Begins cs)
    (hblanks : ∀ c ∈ blanks, isSpace c = true) : Fits (room + 1) ('\x7b' :: blanks ++ cs) := by
  intro fuel rest hfuel
  cases fuel with
  | zero => rfl
  | succ fuel =>
    have hlength : cs.length ≤ fuel := by
      simp only [List.length_append, List.length_cons] at hfuel
      omega
    rw [List.append_assoc, List.cons_append, overflow?, skipSpace_append hblanks,
      (hbegins.append rest).skipSpace]
    exact h fuel rest hlength

section Member

variable {key colon rest after : List Char} {name : String} {fuel : Nat}
  (h : overflow? room fuel (cs ++ rest) = none) (hkey : ReadsString key name)
  (hgap : ∀ c ∈ gap, isSpace c = true) (hcolon : ∀ c ∈ colon, isSpace c = true)
  (hbegins : Begins cs) (hvalue : readValue fuel (cs ++ rest) = .ok (x, after))

include h hkey hgap hcolon hbegins hvalue

/-- Behind a key and a colon comes a value with room enough, then what stands behind it decides. -/
theorem overflowMembers?_memberText {c : Char} {more : List Char}
    (hafter : skipSpace after = c :: more) :
    overflowMembers? room (fuel + 1) (memberText key gap colon cs ++ rest) =
      if c = ',' then overflowMembers? room fuel (skipSpace more) else none := by
  obtain ⟨body, rfl, hread⟩ := hkey
  rw [memberText, List.append_assoc, List.cons_append, overflowMembers?, hread]
  simp only [List.append_assoc, List.cons_append, skipSpace_append hgap,
    skipSpace_cons (show isSpace ':' = false by rfl), skipSpace_append hcolon,
    (hbegins.append rest).skipSpace, h, hvalue, hafter, Option.orElse_none]
  by_cases hc : c = ','
  · subst hc
    rfl
  · simp [hc]

end Member

section Members

variable {key colon gap' : List Char} {name : String} (h : Fits room cs) (hreads : Reads cs x)
  (hbegins : Begins cs) (hkey : ReadsString key name) (hgap : ∀ c ∈ gap, isSpace c = true)
  (hcolon : ∀ c ∈ colon, isSpace c = true)

include h hreads hbegins hkey hgap hcolon

theorem Fits.last_member (hblanks : ∀ c ∈ blanks, isSpace c = true) :
    FitsMembers room (memberText key gap colon cs ++ (blanks ++ ['\x7d'])) := by
  intro fuel rest hfuel
  have hlength := length_memberText key gap colon cs
  rw [List.length_append] at hfuel
  cases fuel with
  | zero => rfl
  | succ fuel =>
    have hstop : NoNumber (blanks ++ ('\x7d' :: rest)) :=
      noNumber_blanks hblanks (by simp [NoNumber, isDigit])
    have hend : skipSpace (blanks ++ ('\x7d' :: rest)) = '\x7d' :: rest := by
      rw [skipSpace_append hblanks, skipSpace_cons (by rfl)]
    have hvalue := hreads fuel _ (by omega) hstop
    have hroom := h fuel (blanks ++ ('\x7d' :: rest)) (by omega)
    rw [List.append_assoc, List.append_assoc, List.singleton_append,
      overflowMembers?_memberText hroom hkey hgap hcolon hbegins hvalue hend]
    exact if_neg (by decide)

theorem Fits.more_members (hgap' : ∀ c ∈ gap', isSpace c = true)
    (hblanks : ∀ c ∈ blanks, isSpace c = true) (hmoreBegins : Begins ds)
    (hmore : FitsMembers room ds) :
    FitsMembers room (memberText key gap colon cs ++ (gap' ++ ',' :: (blanks ++ ds))) := by
  intro fuel rest hfuel
  have hlength := length_memberText key gap colon cs
  simp only [List.length_append, List.length_cons] at hfuel
  cases fuel with
  | zero => rfl
  | succ fuel =>
    have hstop : NoNumber (gap' ++ ',' :: (blanks ++ (ds ++ rest))) :=
      noNumber_blanks hgap' (by simp [NoNumber, isDigit])
    have hend : skipSpace (gap' ++ ',' :: (blanks ++ (ds ++ rest))) =
        ',' :: (blanks ++ (ds ++ rest)) := by
      rw [skipSpace_append hgap', skipSpace_cons (by rfl)]
    have hnext : skipSpace (blanks ++ (ds ++ rest)) = ds ++ rest := by
      rw [skipSpace_append hblanks, (hmoreBegins.append rest).skipSpace]
    have hvalue := hreads fuel _ (by omega) hstop
    have hroom := h fuel (gap' ++ ',' :: (blanks ++ (ds ++ rest))) (by omega)
    rw [List.append_assoc, List.append_assoc, List.cons_append, List.append_assoc,
      overflowMembers?_memberText hroom hkey hgap hcolon hbegins hvalue hend, if_pos rfl, hnext]
    exact hmore fuel rest (by omega)

end Members

theorem fits_numeric {cs : List Char} (h : Numeric cs) (room : Nat) : Fits room cs := by
  obtain ⟨negative, d, ds, rfl, hd⟩ := h
  cases negative with
  | true => exact fits_of_head (by decide) (by decide) room (d :: ds)
  | false =>
    refine fits_of_head ?_ ?_ room ds
    · rintro rfl
      cases hd
    · rintro rfl
      cases hd

/-- Where a bracket closes an array at once nothing is opened. -/
theorem fits_arr_nil (room : Nat) : Fits (room + 1) ['[', ']'] := by
  intro fuel rest _
  cases fuel with
  | zero => rfl
  | succ fuel =>
    rw [List.cons_append, List.singleton_append, overflow?, skipSpace_cons (by rfl)]
    cases fuel with
    | zero => rfl
    | succ fuel =>
      have hstop : ∃ stop, readValue fuel (']' :: rest) = .error stop := by
        cases fuel <;> exact ⟨_, rfl⟩
      obtain ⟨stop, hstop⟩ := hstop
      rw [overflowElements?, overflow?_cons (by decide) (by decide), hstop]
      rfl

theorem fits_obj_nil (room : Nat) : Fits (room + 1) ['\x7b', '\x7d'] := by
  intro fuel rest _
  cases fuel with
  | zero => rfl
  | succ fuel =>
    rw [List.cons_append, List.singleton_append, overflow?, skipSpace_cons (by rfl)]
    cases fuel <;> rfl

theorem begins_finite (l : Layout) (depth : Nat) {j : Json} (h : j.allFinite = true) :
    Begins (writeAt l depth j) :=
  begins_writeAt depth j (.inr h)

variable {l : Layout}

mutual

/-- The text of a finite value fits where there is room for the levels of the value. -/
theorem fits_writeAt (hl : l.Lawful) (depth : Nat) (j : Json) (hwell : j.wellFormed = true)
    (hfinite : j.allFinite = true) {room : Nat} (hheight : j.height ≤ room) :
    Fits room (writeAt l depth j) := by
  match j, room with
  | .null, room | .bool true, room | .bool false, room | .str _, room =>
    exact fits_of_head (by decide) (by decide) room _
  | .int n, room => exact fits_numeric (numeric_writeInt n) room
  | .float (.finite negative x), room =>
    rw [writeAt, write_finite]
    exact fits_numeric (numeric_size negative l.float x) room
  | .float .nan, _ | .float (.infinite _), _ => cases hfinite
  | .arr _, 0 | .obj _, 0 => exact absurd hheight (Nat.not_le.mpr (height_pos _))
  | .arr [], room + 1 => exact fits_arr_nil room
  | .arr (x :: xs), room + 1 =>
    have h := fits_elements hl (depth + 1) (isSpace_newline l depth) x xs hwell hfinite
      (height_arr_le.mp hheight)
    have hbegins := (begins_finite l (depth + 1) (Bool.and_eq_true_iff.mp hfinite).1).append
      (writeMore l (depth + 1) xs ++ (l.newline depth ++ [']']))
    have hfits := h.fits hbegins (isSpace_newline l (depth + 1))
    rw [writeAt]
    simpa only [List.append_assoc, List.cons_append] using hfits
  | .obj [], room + 1 => exact fits_obj_nil room
  | .obj ((k, v) :: rest), room + 1 =>
    have h := fits_members hl (depth + 1) (isSpace_newline l depth) k v rest
      (Bool.and_eq_true_iff.mp hwell).2 hfinite (height_obj_le.mp hheight)
    have hbegins : Begins (writeString k ++ l.colon.toList ++ writeAt l (depth + 1) v ++
        (writeMembers l (depth + 1) rest ++ (l.newline depth ++ ['\x7d']))) :=
      begins_quote _
    have hfits := h.fits hbegins (isSpace_newline l (depth + 1))
    rw [writeAt]
    simpa only [List.append_assoc, List.cons_append] using hfits
termination_by sizeOf j

theorem fits_elements (hl : l.Lawful) (depth : Nat) {blanks : List Char}
    (hblanks : ∀ c ∈ blanks, isSpace c = true) (x : Json) (xs : List Json)
    (hwell : wellFormedList (x :: xs) = true) (hfinite : allFiniteList (x :: xs) = true)
    {room : Nat} (hheight : ∀ y ∈ x :: xs, y.height ≤ room) :
    FitsElements room (writeAt l depth x ++ (writeMore l depth xs ++ (blanks ++ [']']))) := by
  obtain ⟨hwellx, hwellxs⟩ := Bool.and_eq_true_iff.mp hwell
  obtain ⟨hfinitex, hfinitexs⟩ := Bool.and_eq_true_iff.mp hfinite
  obtain ⟨hheightx, hheightxs⟩ := List.forall_mem_cons.mp hheight
  have hreads := reads_writeAt hl depth x hwellx (.inr hfinitex)
  have hx := fits_writeAt hl depth x hwellx hfinitex hheightx
  match xs with
  | [] => exact hx.last_element hreads hblanks
  | y :: ys =>
    obtain ⟨gap, hgap, hblank⟩ := hl.between depth
    have hmore := fits_elements hl depth hblanks y ys hwellxs hfinitexs hheightxs
    have hbegins := (begins_finite l depth (Bool.and_eq_true_iff.mp hfinitexs).1).append
      (writeMore l depth ys ++ (blanks ++ [']']))
    have hfits := hx.more_elements hreads (List.forall_mem_nil _) hblank hbegins hmore
    rw [writeMore, hgap]
    simpa only [List.append_assoc, List.cons_append, List.nil_append] using hfits
termination_by sizeOf (x :: xs)

theorem fits_members (hl : l.Lawful) (depth : Nat) {blanks : List Char}
    (hblanks : ∀ c ∈ blanks, isSpace c = true) (k : String) (v : Json)
    (rest : List (String × Json)) (hwell : wellFormedMembers ((k, v) :: rest) = true)
    (hfinite : allFiniteMembers ((k, v) :: rest) = true) {room : Nat}
    (hheight : ∀ kv ∈ (k, v) :: rest, kv.2.height ≤ room) :
    FitsMembers room (writeString k ++ l.colon.toList ++ writeAt l depth v ++
      (writeMembers l depth rest ++ (blanks ++ ['\x7d']))) := by
  obtain ⟨hwellv, hwellrest⟩ := Bool.and_eq_true_iff.mp hwell
  obtain ⟨hfinitev, hfiniterest⟩ := Bool.and_eq_true_iff.mp hfinite
  obtain ⟨hheightv, hheightrest⟩ := List.forall_mem_cons.mp hheight
  have hreads := reads_writeAt hl depth v hwellv (.inr hfinitev)
  have hv := fits_writeAt hl depth v hwellv hfinitev hheightv
  have hbegins := begins_finite l depth hfinitev
  obtain ⟨colon, htext, hcolon⟩ := hl.member k (writeAt l depth v)
  rw [htext]
  match rest with
  | [] =>
    exact hv.last_member hreads hbegins (readsString_write k) (List.forall_mem_nil _) hcolon hblanks
  | (k', v') :: rest =>
    obtain ⟨gap, hgap, hblank⟩ := hl.between depth
    have hmore := fits_members hl depth hblanks k' v' rest hwellrest hfiniterest hheightrest
    have hbeginsMore : Begins (writeString k' ++ l.colon.toList ++ writeAt l depth v' ++
        (writeMembers l depth rest ++ (blanks ++ ['\x7d']))) :=
      begins_quote _
    have hfits := hv.more_members hreads hbegins (readsString_write k) (List.forall_mem_nil _)
      hcolon (List.forall_mem_nil _) hblank hbeginsMore hmore
    rw [writeMembers, hgap]
    simpa only [List.append_assoc, List.cons_append, List.nil_append] using hfits
termination_by sizeOf ((k, v) :: rest)

end

end Sluice.Json
