import Sluice.Proofs.Json.Numbers
import Sluice.Proofs.Json.Shape
import Sluice.Proofs.Json.Strings

/-!
Values as JSON text. A value that is written in any of the layouts is read as itself, as long as its
whole numbers have no more digits than are read and no object has a key twice, which is so for every
value that was read.
-/

namespace Sluice.Json

/-- Only blanks stand after commas and colons. -/
structure Layout.Lawful (l : Layout) : Prop where
  comma : ∃ blanks, l.comma.toList = ',' :: blanks ∧ ∀ c ∈ blanks, isSpace c = true
  colon : ∃ blanks, l.colon.toList = ':' :: blanks ∧ ∀ c ∈ blanks, isSpace c = true

/-- Undefined and infinite numbers have the words that are read as these. -/
def Layout.Names (l : Layout) : Prop :=
  l.float.nan = "NaN" ∧ l.float.infinity = "Infinity" ∧ l.float.negativeInfinity = "-Infinity"

/-- A layout tells all numbers of a value apart. -/
def Layout.Shows (l : Layout) (allFinite : Bool) : Prop :=
  l.Names ∨ allFinite = true

theorem skipSpace_append {blanks : List Char} (h : ∀ c ∈ blanks, isSpace c = true)
    (cs : List Char) : skipSpace (blanks ++ cs) = skipSpace cs := by
  rw [skipSpace, List.dropWhile_append_of_pos h, skipSpace]

theorem skipSpace_cons {c : Char} (h : isSpace c = false) (cs : List Char) :
    skipSpace (c :: cs) = c :: cs := by
  rw [skipSpace, List.dropWhile_cons_of_neg (by simp [h])]

theorem isSpace_newline (l : Layout) (depth : Nat) : ∀ c ∈ l.newline depth, isSpace c = true := by
  intro c hc
  unfold Layout.newline at hc
  split at hc
  · rcases List.mem_cons.mp hc with rfl | hc
    · rfl
    · rw [List.eq_of_mem_replicate hc]
      rfl
  · cases hc

/-- A text is read as a value, whatever follows that is no part of a number. -/
def Reads (cs : List Char) (j : Json) : Prop :=
  ∀ fuel rest, cs.length ≤ fuel → NoNumber rest → readValue fuel (cs ++ rest) = .ok (j, rest)

def ReadsElements (cs : List Char) (xs : List Json) : Prop :=
  ∀ fuel rest, cs.length ≤ fuel → readElements fuel (cs ++ rest) = .ok (xs, rest)

def ReadsMembers (cs : List Char) (ms : List (String × Json)) : Prop :=
  ∀ fuel rest, cs.length ≤ fuel → readMembers fuel (cs ++ rest) = .ok (ms, rest)

/-- A text begins with a value or a member: neither with a blank nor with a closing bracket, nor with
the mark that may stand before a text. -/
def Begins (cs : List Char) : Prop :=
  ∃ c t, cs = c :: t ∧ isSpace c = false ∧ c ≠ ']' ∧ c ≠ '\x7d' ∧ c ≠ '\ufeff'

theorem begins_cons {c : Char} (h : isSpace c = false ∧ c ≠ ']' ∧ c ≠ '\x7d' ∧ c ≠ '\ufeff')
    (t : List Char) : Begins (c :: t) :=
  ⟨c, t, rfl, h⟩

/-- Strings and the names of members begin with a quote. -/
theorem begins_quote (t : List Char) : Begins ('"' :: t) :=
  begins_cons (by decide) t

theorem Begins.append {cs : List Char} (h : Begins cs) (ds : List Char) : Begins (cs ++ ds) := by
  obtain ⟨c, t, rfl, hc⟩ := h
  exact ⟨c, t ++ ds, rfl, hc⟩

theorem Begins.skipSpace {cs : List Char} (h : Begins cs) : skipSpace cs = cs := by
  obtain ⟨c, t, rfl, hc, -⟩ := h
  exact skipSpace_cons hc t

theorem Begins.ne_mark {cs : List Char} (h : Begins cs) (t : List Char) : cs ≠ '\ufeff' :: t := by
  obtain ⟨c, ds, rfl, -, -, -, hmark⟩ := h
  intro heq
  exact hmark (List.cons.inj heq).1

/-- Blanks and what comes after them are no part of a number. -/
theorem noNumber_blanks {blanks : List Char} (h : ∀ c ∈ blanks, isSpace c = true) {cs : List Char}
    (hcs : NoNumber cs) : NoNumber (blanks ++ cs) := by
  cases blanks with
  | nil => exact hcs
  | cons b blanks =>
    intro c hc
    obtain rfl : b = c := by simpa using hc
    have hb := h b (by simp)
    simp only [isSpace, Bool.or_eq_true, beq_iff_eq] at hb
    rcases hb with ((rfl | rfl) | rfl) | rfl <;> decide

theorem Numeric.reads {cs : List Char} (h : Numeric cs) {j : Json}
    (hread : ∀ rest, NoNumber rest → readNumber (cs ++ rest) = .ok (j, rest)) : Reads cs j := by
  intro fuel rest hfuel hrest
  have hpos : fuel ≠ 0 := by
    rintro rfl
    obtain ⟨negative, d, ds, rfl, -⟩ := h
    cases negative <;> cases hfuel
  obtain ⟨fuel, rfl⟩ := Nat.exists_eq_succ_of_ne_zero hpos
  rw [(h.append rest).readValue, hread rest hrest]

/-- The words are read as the values that they stand for. -/
theorem reads_word {word : List Char} {j : Json} (h : (word, j) ∈ words) : Reads word j := by
  intro fuel rest hfuel hrest
  simp only [words, List.mem_cons, List.not_mem_nil, or_false, Prod.mk.injEq] at h
  cases fuel with
  | zero => rcases h with h | h | h | h | h | h <;> · obtain ⟨rfl, -⟩ := h; cases hfuel
  | succ fuel =>
    rcases h with h | h | h | h | h | h <;> · obtain ⟨rfl, rfl⟩ := h; rfl

def ReadsString (cs : List Char) (s : String) : Prop :=
  ∃ body, cs = '"' :: body ∧ ∀ start rest, readString start (body ++ rest) = .ok (s, rest)

theorem readsString_write (s : String) : ReadsString (writeString s) s :=
  ⟨s.toList.flatMap escapeChar ++ ['"'], rfl, fun start rest => by
    rw [List.append_assoc, List.singleton_append, readString_write]⟩

theorem ReadsString.reads {cs : List Char} {s : String} (h : ReadsString cs s) :
    Reads cs (.str s) := by
  obtain ⟨body, rfl, hread⟩ := h
  intro fuel rest hfuel _
  cases fuel with
  | zero => cases hfuel
  | succ fuel =>
    rw [List.cons_append, readValue, hread]
    rfl

/-- An array of no elements, with blanks inside it. -/
theorem reads_arr_nil {blanks : List Char} (hblanks : ∀ c ∈ blanks, isSpace c = true) :
    Reads ('[' :: (blanks ++ [']'])) (.arr []) := by
  intro fuel rest hfuel _
  cases fuel with
  | zero => cases hfuel
  | succ fuel =>
    rw [List.cons_append, List.append_assoc, List.singleton_append, readValue,
      skipSpace_append hblanks, skipSpace_cons (by rfl)]
    rfl

/-- An object of no members, with blanks inside it. -/
theorem reads_obj_nil {blanks : List Char} (hblanks : ∀ c ∈ blanks, isSpace c = true) :
    Reads ('\x7b' :: (blanks ++ ['\x7d'])) (.obj []) := by
  intro fuel rest hfuel _
  cases fuel with
  | zero => cases hfuel
  | succ fuel =>
    rw [List.cons_append, List.append_assoc, List.singleton_append, readValue,
      skipSpace_append hblanks, skipSpace_cons (by rfl)]
    rfl

section Containers

variable {cs ds gap blanks : List Char} {x : Json} {xs : List Json} {ms : List (String × Json)}

theorem ReadsElements.reads (h : ReadsElements cs xs) (hbegins : Begins cs)
    (hblanks : ∀ c ∈ blanks, isSpace c = true) : Reads ('[' :: blanks ++ cs) (.arr xs) := by
  intro fuel rest hfuel _
  cases fuel with
  | zero => cases hfuel
  | succ fuel =>
    have hlength : cs.length ≤ fuel := by
      simp only [List.length_append, List.length_cons] at hfuel
      omega
    have hread := h fuel rest hlength
    obtain ⟨c, t, hct, hc, hne, -⟩ := hbegins.append rest
    rw [hct] at hread
    rw [List.append_assoc, List.cons_append, readValue, skipSpace_append hblanks, hct,
      skipSpace_cons hc]
    split
    · rename_i heq
      cases heq
      exact absurd rfl hne
    · rw [hread]
      rfl

/-- The last element: blanks and the bracket follow it. -/
theorem Reads.last_element (h : Reads cs x) (hblanks : ∀ c ∈ blanks, isSpace c = true) :
    ReadsElements (cs ++ (blanks ++ [']'])) [x] := by
  intro fuel rest hfuel
  cases fuel with
  | zero => simp at hfuel
  | succ fuel =>
    have hlength : cs.length ≤ fuel := by
      simp only [List.length_append, List.length_singleton] at hfuel
      omega
    have hstop : NoNumber (blanks ++ (']' :: rest)) :=
      noNumber_blanks hblanks (by simp [NoNumber, isDigit])
    have hread := h fuel _ hlength hstop
    rw [List.append_assoc, List.append_assoc, List.singleton_append, readElements, hread]
    simp only [bind, Except.bind, skipSpace_append hblanks,
      skipSpace_cons (show isSpace ']' = false by rfl)]
    rfl

/-- An element that is followed by a comma and more of them. -/
theorem Reads.more_elements (h : Reads cs x) (hgap : ∀ c ∈ gap, isSpace c = true)
    (hblanks : ∀ c ∈ blanks, isSpace c = true) (hbegins : Begins ds) (hmore : ReadsElements ds xs) :
    ReadsElements (cs ++ (gap ++ ',' :: (blanks ++ ds))) (x :: xs) := by
  intro fuel rest hfuel
  cases fuel with
  | zero => simp at hfuel
  | succ fuel =>
    have hlength : cs.length ≤ fuel ∧ ds.length ≤ fuel := by
      simp only [List.length_append, List.length_cons] at hfuel
      omega
    have hstop : NoNumber (gap ++ ',' :: (blanks ++ (ds ++ rest))) :=
      noNumber_blanks hgap (by simp [NoNumber, isDigit])
    have hread := h fuel _ hlength.1 hstop
    have hskip : skipSpace (blanks ++ (ds ++ rest)) = ds ++ rest := by
      rw [skipSpace_append hblanks, (hbegins.append rest).skipSpace]
    rw [List.append_assoc, List.append_assoc, List.cons_append, List.append_assoc, readElements,
      hread]
    simp only [bind, Except.bind, skipSpace_append hgap,
      skipSpace_cons (show isSpace ',' = false by rfl), hskip, hmore fuel rest hlength.2]
    rfl

theorem ReadsMembers.reads (h : ReadsMembers cs ms) (hbegins : Begins cs)
    (hblanks : ∀ c ∈ blanks, isSpace c = true) :
    Reads ('\x7b' :: blanks ++ cs) (.obj (distinct ms)) := by
  intro fuel rest hfuel _
  cases fuel with
  | zero => cases hfuel
  | succ fuel =>
    have hlength : cs.length ≤ fuel := by
      simp only [List.length_append, List.length_cons] at hfuel
      omega
    have hread := h fuel rest hlength
    obtain ⟨c, t, hct, hc, -, hne, -⟩ := hbegins.append rest
    rw [hct] at hread
    rw [List.append_assoc, List.cons_append, readValue, skipSpace_append hblanks, hct,
      skipSpace_cons hc]
    split
    · rename_i heq
      cases heq
      exact absurd rfl hne
    · rw [hread]
      rfl

def memberText (key gap colon cs : List Char) : List Char :=
  key ++ (gap ++ ':' :: (colon ++ cs))

theorem length_memberText (key gap colon cs : List Char) :
    cs.length < (memberText key gap colon cs).length := by
  simp only [memberText, List.length_append, List.length_cons]
  omega

variable {key gap' colon : List Char} {name : String}

section Member

variable {fuel : Nat} {rest after more : List Char} (hkey : ReadsString key name)
  (hgap : ∀ c ∈ gap, isSpace c = true) (hcolon : ∀ c ∈ colon, isSpace c = true)
  (hbegins : Begins cs) (hvalue : readValue fuel (cs ++ rest) = .ok (x, after))

include hkey hgap hcolon hbegins hvalue

/-- A key and a colon are read, then the value, then the brace. -/
theorem readMembers_last (hend : skipSpace after = '\x7d' :: more) :
    readMembers (fuel + 1) (memberText key gap colon cs ++ rest) = .ok ([(name, x)], more) := by
  obtain ⟨body, rfl, hread⟩ := hkey
  rw [memberText, List.append_assoc, List.cons_append, readMembers, hread]
  simp only [bind, Except.bind, List.append_assoc, List.cons_append, skipSpace_append hgap,
    skipSpace_cons (show isSpace ':' = false by rfl), skipSpace_append hcolon,
    (hbegins.append rest).skipSpace, hvalue, hend]
  rfl

/-- After a comma the other members are read. -/
theorem readMembers_more (hend : skipSpace after = ',' :: more) {rest' : List Char}
    (hmore : readMembers fuel (skipSpace more) = .ok (ms, rest')) :
    readMembers (fuel + 1) (memberText key gap colon cs ++ rest) = .ok ((name, x) :: ms, rest') := by
  obtain ⟨body, rfl, hread⟩ := hkey
  rw [memberText, List.append_assoc, List.cons_append, readMembers, hread]
  simp only [bind, Except.bind, List.append_assoc, List.cons_append, skipSpace_append hgap,
    skipSpace_cons (show isSpace ':' = false by rfl), skipSpace_append hcolon,
    (hbegins.append rest).skipSpace, hvalue, hend, hmore]
  rfl

end Member

/-- The last member: blanks and the brace follow its value. -/
theorem Reads.last_member (h : Reads cs x) (hbegins : Begins cs) (hkey : ReadsString key name)
    (hgap : ∀ c ∈ gap, isSpace c = true) (hcolon : ∀ c ∈ colon, isSpace c = true)
    (hblanks : ∀ c ∈ blanks, isSpace c = true) :
    ReadsMembers (memberText key gap colon cs ++ (blanks ++ ['\x7d'])) [(name, x)] := by
  intro fuel rest hfuel
  have hlength := length_memberText key gap colon cs
  rw [List.length_append] at hfuel
  cases fuel with
  | zero => omega
  | succ fuel =>
    have hstop : NoNumber (blanks ++ ('\x7d' :: rest)) :=
      noNumber_blanks hblanks (by simp [NoNumber, isDigit])
    have hend : skipSpace (blanks ++ ('\x7d' :: rest)) = '\x7d' :: rest := by
      rw [skipSpace_append hblanks, skipSpace_cons (by rfl)]
    rw [List.append_assoc, List.append_assoc, List.singleton_append]
    exact readMembers_last hkey hgap hcolon hbegins (h fuel _ (by omega) hstop) hend

/-- A member that is followed by a comma and more of them. -/
theorem Reads.more_members (h : Reads cs x) (hbegins : Begins cs) (hkey : ReadsString key name)
    (hgap : ∀ c ∈ gap, isSpace c = true) (hcolon : ∀ c ∈ colon, isSpace c = true)
    (hgap' : ∀ c ∈ gap', isSpace c = true) (hblanks : ∀ c ∈ blanks, isSpace c = true)
    (hmoreBegins : Begins ds) (hmore : ReadsMembers ds ms) :
    ReadsMembers (memberText key gap colon cs ++ (gap' ++ ',' :: (blanks ++ ds)))
      ((name, x) :: ms) := by
  intro fuel rest hfuel
  have hlength := length_memberText key gap colon cs
  simp only [List.length_append, List.length_cons] at hfuel
  cases fuel with
  | zero => omega
  | succ fuel =>
    have hstop : NoNumber (gap' ++ ',' :: (blanks ++ (ds ++ rest))) :=
      noNumber_blanks hgap' (by simp [NoNumber, isDigit])
    have hend : skipSpace (gap' ++ ',' :: (blanks ++ (ds ++ rest))) =
        ',' :: (blanks ++ (ds ++ rest)) := by
      rw [skipSpace_append hgap', skipSpace_cons (by rfl)]
    have hnext : readMembers fuel (skipSpace (blanks ++ (ds ++ rest))) = .ok (ms, rest) := by
      rw [skipSpace_append hblanks, (hmoreBegins.append rest).skipSpace]
      exact hmore fuel rest (by omega)
    rw [List.append_assoc, List.append_assoc, List.cons_append, List.append_assoc]
    exact readMembers_more hkey hgap hcolon hbegins (h fuel _ (by omega) hstop) hend hnext

end Containers

/-- Members with different keys are what is read. -/
theorem distinct_eq_self {ms : List (String × Json)} (h : (ms.map Prod.fst).Nodup) :
    distinct ms = ms := by
  have hput (seen : List (String × Json)) (k : String) (v : Json) (hk : k ∉ seen.map Prod.fst) :
      put seen k v = seen ++ [(k, v)] := by
    induction seen with
    | nil => rfl
    | cons kv seen ih =>
      obtain ⟨hne, hmem⟩ := not_or.mp (mt List.mem_cons.mpr hk)
      rw [put, if_neg (Ne.symm hne), ih hmem, List.cons_append]
  have hfold (ms seen : List (String × Json)) (h : ((seen ++ ms).map Prod.fst).Nodup) :
      ms.foldl (fun members kv => put members kv.1 kv.2) seen = seen ++ ms := by
    induction ms generalizing seen with
    | nil => simp
    | cons kv ms ih =>
      have hk : kv.1 ∉ seen.map Prod.fst := by
        rw [List.map_append, List.map_cons] at h
        exact fun hmem => (List.nodup_append.mp h).2.2 _ hmem _ (by simp) rfl
      rw [List.foldl_cons, hput seen kv.1 kv.2 hk, ih, List.append_assoc, List.singleton_append]
      rwa [List.append_assoc, List.singleton_append]
  exact hfold ms [] h

variable {l : Layout}

theorem begins_numeric {cs : List Char} (h : Numeric cs) : Begins cs := by
  obtain ⟨negative, d, ds, rfl, hd⟩ := h
  cases negative with
  | true => exact begins_cons (by decide) (d :: ds)
  | false =>
    have hne (c : Char) (hc : isDigit c = false) : d ≠ c := by
      rintro rfl
      rw [hd] at hc
      cases hc
    refine ⟨d, ds, rfl, ?_, hne ']' rfl, hne '\x7d' rfl, hne '\ufeff' (by decide)⟩
    simp [isSpace, hne ' ' rfl, hne '\t' rfl, hne '\n' rfl, hne '\r' rfl]

theorem begins_word {word : List Char} {j : Json} (h : (word, j) ∈ words) : Begins word := by
  simp only [words, List.mem_cons, List.not_mem_nil, or_false, Prod.mk.injEq] at h
  rcases h with h | h | h | h | h | h <;>
    · obtain ⟨rfl, -⟩ := h
      exact begins_cons (by decide) _

/-- The text of a number in a layout that tells it apart. -/
theorem float_text (x : Binary64) (h : l.Shows x.isFinite) :
    Reads (l.float.write x) (.float x) ∧ Begins (l.float.write x) := by
  cases x with
  | finite negative x =>
    have hnumeric := numeric_size negative l.float x
    rw [write_finite]
    refine ⟨hnumeric.reads fun rest hrest => ?_, begins_numeric hnumeric⟩
    rw [signed_append, readNumber_size negative l.float x hrest]
  | nan =>
    obtain ⟨hnan, -, -⟩ := h.resolve_right (by simp [Binary64.isFinite])
    have hword : ("NaN".toList, Json.float .nan) ∈ words := by simp [words]
    rw [Decimal.Notation.write, hnan]
    exact ⟨reads_word hword, begins_word hword⟩
  | infinite negative =>
    obtain ⟨-, hpos, hneg⟩ := h.resolve_right (by simp [Binary64.isFinite])
    cases negative with
    | false =>
      have hword : ("Infinity".toList, Json.float (.infinite false)) ∈ words := by simp [words]
      rw [Decimal.Notation.write, hpos]
      exact ⟨reads_word hword, begins_word hword⟩
    | true =>
      have hword : ("-Infinity".toList, Json.float (.infinite true)) ∈ words := by simp [words]
      rw [Decimal.Notation.write, hneg]
      exact ⟨reads_word hword, begins_word hword⟩

/-- The text of a value begins with no blank and no closing bracket. -/
theorem begins_writeAt (depth : Nat) (j : Json) (h : l.Shows j.allFinite) :
    Begins (writeAt l depth j) := by
  cases j with
  | null => exact begins_cons (by decide) _
  | bool b => cases b <;> exact begins_cons (by decide) _
  | int n => exact begins_numeric (numeric_writeInt n)
  | float x => exact (float_text x h).2
  | str s => exact begins_quote _
  | arr xs => cases xs <;> exact begins_cons (by decide) _
  | obj ms => cases ms <;> exact begins_cons (by decide) _

theorem Layout.Shows.and {a b : Bool} (h : l.Shows (a && b)) : l.Shows a ∧ l.Shows b := by
  rcases h with h | h
  · exact ⟨.inl h, .inl h⟩
  · obtain ⟨ha, hb⟩ := Bool.and_eq_true_iff.mp h
    exact ⟨.inr ha, .inr hb⟩

/-- What stands between two elements is a comma and blanks. -/
theorem Layout.Lawful.between (hl : l.Lawful) (depth : Nat) :
    ∃ blanks, l.between depth = ',' :: blanks ∧ ∀ c ∈ blanks, isSpace c = true := by
  obtain ⟨blanks, hcomma, hblanks⟩ := hl.comma
  refine ⟨blanks ++ l.newline depth, by rw [Layout.between, hcomma, List.cons_append], fun c hc => ?_⟩
  rcases List.mem_append.mp hc with h | h
  · exact hblanks c h
  · exact isSpace_newline l depth c h

/-- The text of a member, as `memberText` has it. -/
theorem Layout.Lawful.member (hl : l.Lawful) (key : String) (cs : List Char) :
    ∃ colon, writeString key ++ l.colon.toList ++ cs = memberText (writeString key) [] colon cs ∧
      ∀ c ∈ colon, isSpace c = true := by
  obtain ⟨colon, htext, hcolon⟩ := hl.colon
  exact ⟨colon, by rw [memberText, htext, List.append_assoc]; rfl, hcolon⟩

mutual

/-- The text of a value is read as the value. -/
theorem reads_writeAt (hl : l.Lawful) (depth : Nat) (j : Json) (hwell : j.wellFormed = true)
    (hshows : l.Shows j.allFinite) : Reads (writeAt l depth j) j := by
  match j with
  | .null | .bool true | .bool false =>
    rw [writeAt]
    exact reads_word (by simp [words])
  | .int n =>
    have hlength := of_decide_eq_true hwell
    exact (numeric_writeInt n).reads fun _ hrest => readNumber_writeInt n hlength hrest
  | .float x => exact (float_text x hshows).1
  | .str s => exact (readsString_write s).reads
  | .arr [] => exact reads_arr_nil (List.forall_mem_nil _)
  | .arr (x :: xs) =>
    have h := reads_elements hl (depth + 1) (isSpace_newline l depth) x xs hwell hshows
    have hbegins := (begins_writeAt (depth + 1) x hshows.and.1).append
      (writeMore l (depth + 1) xs ++ (l.newline depth ++ [']']))
    have hreads := h.reads hbegins (isSpace_newline l (depth + 1))
    rw [writeAt]
    simpa only [List.append_assoc, List.cons_append] using hreads
  | .obj [] => exact reads_obj_nil (List.forall_mem_nil _)
  | .obj ((k, v) :: rest) =>
    obtain ⟨hnodup, hwell⟩ := Bool.and_eq_true_iff.mp hwell
    have h := reads_members hl (depth + 1) (isSpace_newline l depth) k v rest hwell hshows
    have hbegins : Begins (writeString k ++ l.colon.toList ++ writeAt l (depth + 1) v ++
        (writeMembers l (depth + 1) rest ++ (l.newline depth ++ ['\x7d']))) :=
      begins_quote _
    have hreads := h.reads hbegins (isSpace_newline l (depth + 1))
    rw [distinct_eq_self (of_decide_eq_true hnodup)] at hreads
    rw [writeAt]
    simpa only [List.append_assoc, List.cons_append] using hreads
termination_by sizeOf j

/-- The text of the elements of an array, with the bracket behind it. -/
theorem reads_elements (hl : l.Lawful) (depth : Nat) {blanks : List Char}
    (hblanks : ∀ c ∈ blanks, isSpace c = true) (x : Json) (xs : List Json)
    (hwell : wellFormedList (x :: xs) = true) (hshows : l.Shows (allFiniteList (x :: xs))) :
    ReadsElements (writeAt l depth x ++ (writeMore l depth xs ++ (blanks ++ [']']))) (x :: xs) := by
  obtain ⟨hwellx, hwellxs⟩ := Bool.and_eq_true_iff.mp hwell
  have hx := reads_writeAt hl depth x hwellx hshows.and.1
  match xs with
  | [] => exact hx.last_element hblanks
  | y :: ys =>
    obtain ⟨gap, hgap, hblank⟩ := hl.between depth
    have hmore := reads_elements hl depth hblanks y ys hwellxs hshows.and.2
    have hbegins := (begins_writeAt depth y hshows.and.2.and.1).append
      (writeMore l depth ys ++ (blanks ++ [']']))
    have hreads := hx.more_elements (List.forall_mem_nil _) hblank hbegins hmore
    rw [writeMore, hgap]
    simpa only [List.append_assoc, List.cons_append, List.nil_append] using hreads
termination_by sizeOf (x :: xs)

/-- The text of the members of an object, with the brace behind it. -/
theorem reads_members (hl : l.Lawful) (depth : Nat) {blanks : List Char}
    (hblanks : ∀ c ∈ blanks, isSpace c = true) (k : String) (v : Json)
    (rest : List (String × Json)) (hwell : wellFormedMembers ((k, v) :: rest) = true)
    (hshows : l.Shows (allFiniteMembers ((k, v) :: rest))) :
    ReadsMembers (writeString k ++ l.colon.toList ++ writeAt l depth v ++
      (writeMembers l depth rest ++ (blanks ++ ['\x7d']))) ((k, v) :: rest) := by
  obtain ⟨hwellv, hwellrest⟩ := Bool.and_eq_true_iff.mp hwell
  have hv := reads_writeAt hl depth v hwellv hshows.and.1
  have hbegins := begins_writeAt depth v hshows.and.1
  obtain ⟨colon, htext, hcolon⟩ := hl.member k (writeAt l depth v)
  rw [htext]
  match rest with
  | [] =>
    exact hv.last_member hbegins (readsString_write k) (List.forall_mem_nil _) hcolon hblanks
  | (k', v') :: rest =>
    obtain ⟨gap, hgap, hblank⟩ := hl.between depth
    have hmore := reads_members hl depth hblanks k' v' rest hwellrest hshows.and.2
    have hbeginsMore : Begins (writeString k' ++ l.colon.toList ++ writeAt l depth v' ++
        (writeMembers l depth rest ++ (blanks ++ ['\x7d']))) :=
      begins_quote _
    have hreads : ReadsMembers _ ((k, v) :: (k', v') :: rest) :=
      hv.more_members hbegins (readsString_write k) (List.forall_mem_nil _) hcolon
        (List.forall_mem_nil _) hblank hbeginsMore hmore
    rw [writeMembers, hgap]
    simpa only [List.append_assoc, List.cons_append, List.nil_append] using hreads
termination_by sizeOf ((k, v) :: rest)

end

/-- JSON text that is written is read as the value that was written, also with blanks behind it. -/
theorem read_write_append (hl : l.Lawful) {j : Json} (hwell : j.wellFormed = true)
    (hshows : l.Shows j.allFinite) {blanks : List Char} (hblanks : ∀ c ∈ blanks, isSpace c = true) :
    read (write l j ++ blanks) = .ok j := by
  have hstop : NoNumber blanks := by
    have h : NoNumber (blanks ++ []) := noNumber_blanks hblanks (by simp [NoNumber])
    rwa [List.append_nil] at h
  have hlength : (write l j).length ≤ 2 * (write l j ++ blanks).length + 2 := by
    rw [List.length_append]
    omega
  have hread := reads_writeAt hl 0 j hwell hshows _ blanks hlength hstop
  rw [← write] at hread
  have hend : skipSpace blanks = [] := by
    have h := skipSpace_append hblanks []
    rwa [List.append_nil] at h
  have hbegins : Begins (write l j ++ blanks) := (begins_writeAt 0 j hshows).append blanks
  have hdocument : readDocument (write l j ++ blanks) = .ok j := by
    unfold readDocument
    split
    · rename_i heq
      exact absurd heq (hbegins.ne_mark _)
    · rw [hbegins.skipSpace, hread]
      simp only [bind, Except.bind, hend]
      rfl
  rw [read, hdocument]

theorem read_write (hl : l.Lawful) {j : Json} (hwell : j.wellFormed = true)
    (hshows : l.Shows j.allFinite) : read (write l j) = .ok j := by
  have h := read_write_append hl hwell hshows (List.forall_mem_nil _)
  rwa [List.append_nil] at h

/-- Undefined and infinite numbers are written as null. -/
def Layout.Nulls (l : Layout) : Prop :=
  l.float.nan = "null" ∧ l.float.infinity = "null" ∧ l.float.negativeInfinity = "null"

mutual

/-- A layout that has no words for undefined and infinite numbers shows a value as it shows the value
with null in their places. -/
theorem writeAt_finite (hnulls : l.Nulls) (depth : Nat) (j : Json) :
    writeAt l depth j.finite = writeAt l depth j := by
  match j with
  | .null | .bool true | .bool false | .int _ | .str _ | .arr [] | .obj [] => rfl
  | .float (.finite _ _) => rfl
  | .float .nan =>
    change writeAt l depth .null = l.float.nan.toList
    rw [hnulls.1]
    rfl
  | .float (.infinite false) =>
    change writeAt l depth .null = l.float.infinity.toList
    rw [hnulls.2.1]
    rfl
  | .float (.infinite true) =>
    change writeAt l depth .null = l.float.negativeInfinity.toList
    rw [hnulls.2.2]
    rfl
  | .arr (x :: xs) =>
    rw [finite, finiteList, writeAt, writeAt, writeAt_finite hnulls (depth + 1) x,
      writeMore_finite hnulls (depth + 1) xs]
  | .obj ((k, x) :: ms) =>
    rw [finite, finiteMembers, writeAt, writeAt, writeAt_finite hnulls (depth + 1) x,
      writeMembers_finite hnulls (depth + 1) ms]
termination_by sizeOf j

theorem writeMore_finite (hnulls : l.Nulls) (depth : Nat) (xs : List Json) :
    writeMore l depth (finiteList xs) = writeMore l depth xs := by
  match xs with
  | [] => rfl
  | x :: xs =>
    rw [finiteList, writeMore, writeMore, writeAt_finite hnulls depth x,
      writeMore_finite hnulls depth xs]
termination_by sizeOf xs

theorem writeMembers_finite (hnulls : l.Nulls) (depth : Nat) (ms : List (String × Json)) :
    writeMembers l depth (finiteMembers ms) = writeMembers l depth ms := by
  match ms with
  | [] => rfl
  | (k, x) :: ms =>
    rw [finiteMembers, writeMembers, writeMembers, writeAt_finite hnulls depth x,
      writeMembers_finite hnulls depth ms]
termination_by sizeOf ms

end

/-- What is read from a layout without such words has null in their places. -/
theorem read_write_nulls (hl : l.Lawful) (hnulls : l.Nulls) {j : Json} (hwell : j.wellFormed = true)
    {blanks : List Char} (hblanks : ∀ c ∈ blanks, isSpace c = true) :
    read (write l j ++ blanks) = .ok j.finite := by
  rw [write, ← writeAt_finite hnulls, ← write]
  exact read_write_append hl ((wellFormed_finite j).trans hwell) (.inr (allFinite_finite j)) hblanks

/-- A text that is one whole number with too many digits is refused for them. -/
theorem read_long {whole : List Char} (hwhole : IsWhole whole)
    (hlength : Text.maxDigits < whole.length) : read whole = .error (.longNumber whole.length) := by
  have hnumeric : Numeric whole := by
    obtain ⟨d, ds, hds, hd⟩ := hwhole.cons
    exact ⟨false, d, ds, hds, hd⟩
  have hread : readNumber whole = .error (.longNumber whole.length) := by
    have hstop : NoNumber [] := by simp [NoNumber]
    have h := readNumber_digits false hwhole hstop
    rw [List.append_nil, if_pos hlength] at h
    exact h
  have hbegins := begins_numeric hnumeric
  have hdocument : readDocument whole = .error (.longNumber whole.length) := by
    unfold readDocument
    split
    · exact absurd rfl (hbegins.ne_mark _)
    · rw [hbegins.skipSpace, hnumeric.readValue, hread]
      rfl
  rw [read, hdocument]

theorem isSpace_blank : ∀ c ∈ [' '], isSpace c = true := by
  simp [isSpace]

theorem spaced_lawful : spaced.Lawful :=
  ⟨⟨[' '], rfl, isSpace_blank⟩, [' '], rfl, isSpace_blank⟩

theorem compact_lawful : compact.Lawful :=
  ⟨⟨[], rfl, List.forall_mem_nil _⟩, [], rfl, List.forall_mem_nil _⟩

theorem envelope_lawful : envelope.Lawful :=
  ⟨⟨[], rfl, List.forall_mem_nil _⟩, [' '], rfl, isSpace_blank⟩

theorem envelope_nulls : envelope.Nulls :=
  ⟨rfl, rfl, rfl⟩

/-- The layouts between stages have words for all numbers. -/
theorem compact_names : compact.Names :=
  ⟨rfl, rfl, rfl⟩

/-- Different values have different texts. -/
theorem write_injective (hl : l.Lawful) {a b : Json} (ha : a.wellFormed = true)
    (hb : b.wellFormed = true) (hshowsA : l.Shows a.allFinite) (hshowsB : l.Shows b.allFinite)
    (h : write l a = write l b) : a = b := by
  have hread := read_write hl ha hshowsA
  rw [h, read_write hl hb hshowsB] at hread
  exact (Except.ok.inj hread).symm

end Sluice.Json
