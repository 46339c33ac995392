import Sluice.Proofs.Json.RoundTrip
import Sluice.Proofs.Text.Lines

/-!
The characters of JSON text on one line. What the layout, the numbers and the escapes put there are
printed characters of ASCII. All others come from the strings and keys of the value, where they stand
for themselves unless they are control characters.
-/

namespace Sluice

namespace Text

def Printed (c : Char) : Prop :=
  0x20 ≤ c.toNat ∧ c.toNat < 0x7f

instance (c : Char) : Decidable (Printed c) :=
  inferInstanceAs (Decidable (_ ∧ _))

/-- The line breaks that are no control characters of ASCII: next line, line separator and paragraph
separator. -/
def separators : List Char :=
  ['\u0085', '\u2028', '\u2029']

theorem mem_separators_iff {c : Char} :
    c ∈ separators ↔ isLineBreak c = true ∧ 0x20 ≤ c.toNat := by
  have hcode (d : Char) : c = d ↔ c.toNat = d.toNat := Char.toNat_inj.symm
  simp only [separators, List.mem_cons, List.not_mem_nil, or_false, hcode, isLineBreak,
    Bool.or_eq_true, Bool.and_eq_true, decide_eq_true_eq, beq_iff_eq]
  change c.toNat = 0x85 ∨ c.toNat = 0x2028 ∨ c.toNat = 0x2029 ↔ _
  omega

theorem not_ascii_of_isLineBreak {c : Char} (h : isLineBreak c = true) (hlow : 0x20 ≤ c.toNat) :
    0x7f < c.toNat := by
  simp only [isLineBreak, Bool.or_eq_true, Bool.and_eq_true, decide_eq_true_eq, beq_iff_eq] at h
  omega

theorem not_printed_of_isLineBreak {c : Char} (h : isLineBreak c = true) : ¬ Printed c := by
  simp only [isLineBreak, Bool.or_eq_true, Bool.and_eq_true, decide_eq_true_eq, beq_iff_eq] at h
  unfold Printed
  omega

/-- Of the printed characters only the space is blank. -/
theorem isBlank_of_printed {c : Char} (h : Printed c) (hne : c ≠ ' ') : isBlank c = false := by
  have hspace : c.toNat ≠ 0x20 := fun hcode => hne (Char.toNat_inj.mp hcode)
  unfold Printed at h
  simp only [isBlank, Bool.or_eq_false_iff, Bool.and_eq_false_iff, decide_eq_false_iff_not,
    beq_eq_false_iff_ne]
  omega

end Text

namespace Json

open Text (Printed)

mutual

def chars : Json → List Char
  | .str s => s.toList
  | .arr xs => charsList xs
  | .obj ms => charsMembers ms
  | .null | .bool _ | .int _ | .float _ => []

def charsList : List Json → List Char
  | [] => []
  | x :: xs => x.chars ++ charsList xs

def charsMembers : List (String × Json) → List Char
  | [] => []
  | (k, x) :: rest => k.toList ++ x.chars ++ charsMembers rest

end

theorem printed_of_all {cs : List Char} (h : (cs.all fun c => decide (Printed c)) = true) :
    ∀ c ∈ cs, Printed c := by
  simpa using h

theorem printed_digit {c : Char} (h : isDigit c = true) : Printed c := by
  simp only [isDigit, Bool.and_eq_true, decide_eq_true_eq, Char.le_def, UInt32.le_iff_toNat_le] at h
  have hzero : 48 ≤ c.toNat := h.1
  have hnine : c.toNat ≤ 57 := h.2
  exact ⟨by omega, by omega⟩

theorem Digits.printed {cs : List Char} (h : Digits cs) : ∀ c ∈ cs, Printed c :=
  fun c hc => printed_digit (h c hc)

theorem printed_signed {negative : Bool} {cs : List Char} (h : ∀ c ∈ cs, Printed c) :
    ∀ c ∈ signed negative cs, Printed c := by
  cases negative with
  | false => exact h
  | true => exact List.forall_mem_cons.mpr ⟨by decide, h⟩

theorem printed_writeInt (n : Int) : ∀ c ∈ writeInt n, Printed c := by
  cases n with
  | ofNat n => exact (digits_digitsOf n).printed
  | negSucc n => exact List.forall_mem_cons.mpr ⟨by decide, (digits_digitsOf (n + 1)).printed⟩

theorem printed_plain {digits : List Char} (h : Digits digits) (place : Int) :
    ∀ c ∈ Decimal.plain digits place, Printed c := by
  have hzero : Printed '0' := by decide
  have hpoint : Printed '.' := by decide
  unfold Decimal.plain
  split
  · simp only [List.forall_mem_cons]
    exact ⟨hzero, hpoint, h.printed⟩
  · simp only [List.forall_mem_append, List.forall_mem_cons]
    refine ⟨⟨(h.take _).printed, (digits_zeros _).printed⟩, hpoint, ?_⟩
    split
    · simpa using hzero
    · exact (h.drop _).printed
  · simp only [List.cons_append, List.forall_mem_append, List.forall_mem_cons]
    exact ⟨hzero, hpoint, (digits_zeros _).printed, h.printed⟩

theorem printed_exponent (f : Decimal.Notation) (e : Int) : ∀ c ∈ f.exponent e, Printed c := by
  have hmark : Printed 'e' := by decide
  unfold Decimal.Notation.exponent
  split
  · simp only [List.cons_append, List.forall_mem_append, List.forall_mem_cons]
    refine ⟨hmark, ?_, (digits_zeroFilled _ _).printed⟩
    split
    · simp only [List.forall_mem_singleton]
      decide
    · exact List.forall_mem_nil _
  · simp only [List.forall_mem_cons]
    exact ⟨hmark, by decide, (digits_zeroFilled _ _).printed⟩

theorem printed_scientific (f : Decimal.Notation) {digits : List Char} (h : Digits digits)
    (e : Int) : ∀ c ∈ f.scientific digits e, Printed c := by
  have hpoint : Printed '.' := by decide
  match digits with
  | [] => exact List.forall_mem_nil _
  | [d] => exact List.forall_mem_cons.mpr ⟨h.printed d (by simp), printed_exponent f e⟩
  | d :: d' :: rest =>
    have hdigits := h.printed
    simp only [Decimal.Notation.scientific, List.cons_append, List.forall_mem_append,
      List.forall_mem_cons] at hdigits ⊢
    exact ⟨hdigits.1, hpoint, hdigits.2.1, hdigits.2.2, printed_exponent f e⟩

theorem printed_size (f : Decimal.Notation) (x : Magnitude) : ∀ c ∈ f.size x, Printed c := by
  have hdigits := digits_digitsOf (Decimal.shortest x).digits
  simp only [Decimal.Notation.size]
  split
  · exact printed_of_all rfl
  split
  · exact printed_plain hdigits _
  · exact printed_scientific f hdigits _

theorem printed_hex (width n : Nat) : ∀ c ∈ Text.hex width n, Printed c := by
  have hdigit : ∀ d < 16, Printed (Nat.digitChar d) := by decide
  induction width generalizing n with
  | zero => exact List.forall_mem_nil _
  | succ width ih =>
    rw [Text.hex, List.forall_mem_append, List.forall_mem_singleton]
    exact ⟨ih _, hdigit _ (Nat.mod_lt n (by omega))⟩

/-- Letters behind a backslash are printed, and what they stand for is printed or a control
character. -/
theorem printed_of_unescape? {x c : Char} (h : unescape? x = some c) :
    Printed x ∧ (Printed c ∨ c.toNat < 0x20) := by
  unfold unescape? at h
  split at h
  all_goals cases h
  all_goals decide

/-- A character that is not printed ASCII stands in a written string if the string holds it, unless it
is a control character. -/
theorem mem_writeString_iff {c : Char} (hc : ¬ Printed c) (s : String) :
    c ∈ writeString s ↔ c ∈ s.toList ∧ 0x20 ≤ c.toNat := by
  have hquote : c ≠ '"' := by
    rintro rfl
    exact hc (by decide)
  -- Escapes are written in printed letters, and stand for printed or control characters.
  have hescape (d : Char) : c ∈ escapeChar d ↔ c = d ∧ 0x20 ≤ c.toNat := by
    rcases escapeChar_cases d with ⟨x, hd, -, hread⟩ | ⟨hd, hcontrol⟩ | ⟨hd, -, -, hcontrol⟩
    · obtain ⟨hx, hprinted⟩ := printed_of_unescape? hread
      have hletters : ∀ e ∈ escapeChar d, Printed e := by
        rw [hd]
        simp only [List.forall_mem_cons]
        exact ⟨by decide, hx, List.forall_mem_nil _⟩
      refine iff_of_false (fun hmem => hc (hletters c hmem)) ?_
      rintro ⟨rfl, hlow⟩
      rcases hprinted with hprinted | hcontrol
      · exact hc hprinted
      · omega
    · have hletters : ∀ e ∈ escapeChar d, Printed e := by
        rw [hd]
        simp only [List.forall_mem_cons]
        exact ⟨by decide, by decide, printed_hex 4 d.toNat⟩
      refine iff_of_false (fun hmem => hc (hletters c hmem)) ?_
      rintro ⟨rfl, hlow⟩
      omega
    · rw [hd, List.mem_singleton]
      constructor
      · rintro rfl
        exact ⟨rfl, Nat.le_of_not_lt hcontrol⟩
      · exact And.left
  rw [writeString, List.cons_append, List.mem_cons, List.mem_append, List.mem_singleton,
    List.mem_flatMap]
  simp only [hquote, hescape, false_or, or_false]
  constructor
  · rintro ⟨d, hd, rfl, hlow⟩
    exact ⟨hd, hlow⟩
  · rintro ⟨hmem, hlow⟩
    exact ⟨c, hmem, rfl, hlow⟩

structure Layout.OneLine (l : Layout) : Prop where
  indent : l.indent = none
  comma : ∀ c ∈ l.comma.toList, Printed c
  colon : ∀ c ∈ l.colon.toList, Printed c

variable {l : Layout} {c : Char}

theorem Layout.OneLine.newline (h : l.OneLine) (depth : Nat) : l.newline depth = [] := by
  rw [Layout.newline, h.indent]

theorem Layout.OneLine.between (h : l.OneLine) (depth : Nat) :
    l.between depth = l.comma.toList := by
  rw [Layout.between, h.newline, List.append_nil]

theorem iff_of_printed {cs : List Char} (hc : ¬ Printed c) (h : ∀ d ∈ cs, Printed d) :
    c ∈ cs ↔ False :=
  iff_false_intro fun hmem => hc (h c hmem)

mutual

/-- A character that is not printed ASCII stands in the text of a value if a string or key of the
value holds it, unless it is a control character. -/
theorem mem_writeAt_iff (hl : l.OneLine) (hc : ¬ Printed c) (depth : Nat) (j : Json)
    (hfinite : j.allFinite = true) :
    c ∈ writeAt l depth j ↔ c ∈ j.chars ∧ 0x20 ≤ c.toNat := by
  have hopen (d : Char) (hd : Printed d) : c ≠ d := by
    rintro rfl
    exact hc hd
  match j with
  | .null | .bool true | .bool false =>
    rw [writeAt]
    simp only [chars, List.not_mem_nil, false_and]
    exact iff_of_printed hc (printed_of_all (by decide))
  | .int n =>
    simp only [chars, List.not_mem_nil, false_and]
    exact iff_of_printed hc (printed_writeInt n)
  | .float (.finite negative x) =>
    simp only [chars, List.not_mem_nil, false_and]
    rw [writeAt, write_finite]
    exact iff_of_printed hc (printed_signed (printed_size l.float x))
  | .str s => exact mem_writeString_iff hc s
  | .arr [] | .obj [] =>
    rw [writeAt]
    simp only [chars, charsList, charsMembers, List.not_mem_nil, false_and]
    exact iff_of_printed hc (printed_of_all (by decide))
  | .arr (x :: xs) =>
    obtain ⟨hx, hxs⟩ := Bool.and_eq_true_iff.mp hfinite
    have hfirst := mem_writeAt_iff hl hc (depth + 1) x hx
    have hmore := mem_writeMore_iff hl hc (depth + 1) xs hxs
    simp only [writeAt, hl.newline, chars, charsList, List.append_nil, List.cons_append,
      List.nil_append, List.mem_cons, List.mem_append, List.not_mem_nil, hfirst, hmore,
      hopen '[' (by decide), hopen ']' (by decide), false_or, or_false, or_and_right]
  | .obj ((k, x) :: rest) =>
    obtain ⟨hx, hrest⟩ := Bool.and_eq_true_iff.mp hfinite
    have hkey := mem_writeString_iff hc k
    have hfirst := mem_writeAt_iff hl hc (depth + 1) x hx
    have hmore := mem_writeMembers_iff hl hc (depth + 1) rest hrest
    simp only [writeAt, hl.newline, chars, charsMembers, List.append_nil, List.cons_append,
      List.nil_append, List.mem_cons, List.mem_append, List.not_mem_nil, hkey, hfirst, hmore,
      iff_of_printed hc hl.colon, hopen '\x7b' (by decide), hopen '\x7d' (by decide), false_or,
      or_false, or_and_right]
termination_by sizeOf j

theorem mem_writeMore_iff (hl : l.OneLine) (hc : ¬ Printed c) (depth : Nat) (xs : List Json)
    (hfinite : allFiniteList xs = true) :
    c ∈ writeMore l depth xs ↔ c ∈ charsList xs ∧ 0x20 ≤ c.toNat := by
  match xs with
  | [] => simp [writeMore, charsList]
  | x :: xs =>
    obtain ⟨hx, hxs⟩ := Bool.and_eq_true_iff.mp hfinite
    have hfirst := mem_writeAt_iff hl hc depth x hx
    have hmore := mem_writeMore_iff hl hc depth xs hxs
    simp only [writeMore, hl.between, charsList, List.mem_append, hfirst, hmore,
      iff_of_printed hc hl.comma, false_or, or_and_right]
termination_by sizeOf xs

theorem mem_writeMembers_iff (hl : l.OneLine) (hc : ¬ Printed c) (depth : Nat)
    (ms : List (String × Json)) (hfinite : allFiniteMembers ms = true) :
    c ∈ writeMembers l depth ms ↔ c ∈ charsMembers ms ∧ 0x20 ≤ c.toNat := by
  match ms with
  | [] => simp [writeMembers, charsMembers]
  | (k, x) :: rest =>
    obtain ⟨hx, hrest⟩ := Bool.and_eq_true_iff.mp hfinite
    have hkey := mem_writeString_iff hc k
    have hfirst := mem_writeAt_iff hl hc depth x hx
    have hmore := mem_writeMembers_iff hl hc depth rest hrest
    simp only [writeMembers, hl.between, charsMembers, List.mem_append, hkey, hfirst, hmore,
      iff_of_printed hc hl.comma, iff_of_printed hc hl.colon, false_or, or_false, or_and_right]
termination_by sizeOf ms

end

/-- The text of a value is one line if no string or key of the value holds a line break that is no
control character of ASCII. -/
theorem unbroken_writeAt_iff (hl : l.OneLine) (depth : Nat) {j : Json}
    (hfinite : j.allFinite = true) :
    Text.Unbroken (writeAt l depth j) ↔ ∀ c ∈ j.chars, c ∉ Text.separators := by
  have hmem (c : Char) (hbreak : Text.isLineBreak c = true) :=
    mem_writeAt_iff hl (Text.not_printed_of_isLineBreak hbreak) depth j hfinite
  constructor
  · intro hunbroken c hc hseparator
    obtain ⟨hbreak, hlow⟩ := Text.mem_separators_iff.mp hseparator
    have hnot := hunbroken c ((hmem c hbreak).mpr ⟨hc, hlow⟩)
    rw [hbreak] at hnot
    cases hnot
  · intro hchars c hc
    rw [Bool.eq_false_iff]
    intro hbreak
    obtain ⟨hin, hlow⟩ := (hmem c hbreak).mp hc
    exact hchars c hin (Text.mem_separators_iff.mpr ⟨hbreak, hlow⟩)

/-- Something to be seen stands at the beginning of a text. -/
def Opens (cs : List Char) : Prop :=
  ∃ c t, cs = c :: t ∧ Printed c ∧ c ≠ ' '

theorem Opens.not_blank {cs : List Char} (h : Opens cs) : Text.isBlankText cs = false := by
  obtain ⟨c, t, rfl, hc, hne⟩ := h
  rw [Text.isBlankText, List.all_cons, Text.isBlank_of_printed hc hne, Bool.false_and]

/-- A piece of such a text up to a character that is not printed ASCII is one too. -/
theorem Opens.front {front back : List Char} (h : Opens (front ++ c :: back)) (hc : ¬ Printed c) :
    Opens front := by
  obtain ⟨d, t, heq, hd⟩ := h
  cases front with
  | nil =>
    obtain rfl : c = d := (List.cons.inj heq).1
    exact absurd hd.1 hc
  | cons e front =>
    obtain rfl : e = d := (List.cons.inj heq).1
    exact ⟨e, front, rfl, hd⟩

theorem opens_numeric {cs : List Char} (h : Numeric cs) : Opens cs := by
  obtain ⟨negative, d, ds, rfl, hd⟩ := h
  cases negative with
  | true => exact ⟨'-', d :: ds, rfl, by decide, by decide⟩
  | false =>
    refine ⟨d, ds, rfl, printed_digit hd, ?_⟩
    rintro rfl
    cases hd

theorem opens_writeAt (depth : Nat) (j : Json) (hfinite : j.allFinite = true) :
    Opens (writeAt l depth j) := by
  cases j with
  | null => exact ⟨_, _, rfl, by decide, by decide⟩
  | bool b => cases b <;> exact ⟨_, _, rfl, by decide, by decide⟩
  | int n => exact opens_numeric (numeric_writeInt n)
  | float x =>
    match x with
    | .finite negative x =>
      rw [writeAt, write_finite]
      exact opens_numeric (numeric_size negative l.float x)
  | str s => exact ⟨_, _, rfl, by decide, by decide⟩
  | arr xs => cases xs <;> exact ⟨_, _, rfl, by decide, by decide⟩
  | obj ms => cases ms <;> exact ⟨_, _, rfl, by decide, by decide⟩

theorem spaced_oneLine : spaced.OneLine :=
  ⟨rfl, printed_of_all (by decide), printed_of_all (by decide)⟩

end Json

end Sluice
