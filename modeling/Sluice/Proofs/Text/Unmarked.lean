import Sluice.Failure
import Sluice.Proofs.Json.Characters

/-!
Texts without halves of characters. A half is held behind a mark, and no mark prints, so a text in
quotes holds none, and neither does a message that quotes what it is about.
-/

namespace Sluice

namespace Text

/-- A text in which nothing is the mark of a half. -/
def Unmarked (cs : List Char) : Prop :=
  ∀ c ∈ cs, isMark c = false

theorem unmarked_nil : Unmarked [] :=
  List.forall_mem_nil _

theorem unmarked_cons {c : Char} {cs : List Char} :
    Unmarked (c :: cs) ↔ isMark c = false ∧ Unmarked cs :=
  List.forall_mem_cons

theorem unmarked_append {cs ds : List Char} : Unmarked (cs ++ ds) ↔ Unmarked cs ∧ Unmarked ds :=
  List.forall_mem_append

theorem Unmarked.halfFrom_eq_none {cs : List Char} (h : Unmarked cs) (start : Nat) :
    halfFrom start cs = none := by
  induction start, cs using halfFrom.induct with
  | case1 start m a b rest hhalf =>
    have hmark := h m List.mem_cons_self
    simp [isHalf, hmark] at hhalf
  | case2 start m a b rest hhalf ih =>
    rw [halfFrom, if_neg hhalf]
    exact ih (unmarked_cons.mp h).2
  | case3 start cs hshort =>
    rw [halfFrom]
    exact hshort

theorem Unmarked.half?_eq_none {cs : List Char} (h : Unmarked cs) : half? cs = none :=
  h.halfFrom_eq_none 0

theorem unmarked_of_ascii {cs : List Char} (h : ∀ c ∈ cs, c.toNat < 0x80) : Unmarked cs := by
  intro c hc
  have hlow := h c hc
  rw [isMark, Bool.or_eq_false_iff, beq_eq_false_iff_ne, beq_eq_false_iff_ne]
  omega

theorem unmarked_of_printed {cs : List Char} (h : ∀ c ∈ cs, Printed c) : Unmarked cs := by
  refine unmarked_of_ascii fun c hc => ?_
  have hprinted := h c hc
  unfold Printed at hprinted
  omega

/-- A character that prints is no mark: marks are noncharacters. -/
theorem isMark_of_isPrintable {c : Char} (h : isPrintable c = true) : isMark c = false := by
  rw [Bool.eq_false_iff]
  intro hmark
  rw [isMark, Bool.or_eq_true, beq_iff_eq, beq_iff_eq] at hmark
  rcases hmark with hcode | hcode
  · rw [isPrintable, hcode] at h
    exact absurd h (by decide +kernel)
  · rw [isPrintable, hcode] at h
    exact absurd h (by decide +kernel)

theorem unmarked_hex (width n : Nat) : Unmarked (hex width n) :=
  unmarked_of_printed (Json.printed_hex width n)

theorem unmarked_escapedHalf (code : Nat) : Unmarked (escapedHalf code) :=
  unmarked_cons.mpr ⟨rfl, unmarked_cons.mpr ⟨rfl, unmarked_hex 4 code⟩⟩

theorem unmarked_escapedCode (c : Char) : Unmarked (escapedCode c) := by
  unfold escapedCode
  split
  · exact unmarked_cons.mpr ⟨rfl, unmarked_cons.mpr ⟨rfl, unmarked_hex _ _⟩⟩
  split
  · exact unmarked_cons.mpr ⟨rfl, unmarked_cons.mpr ⟨rfl, unmarked_hex _ _⟩⟩
  · exact unmarked_cons.mpr ⟨rfl, unmarked_cons.mpr ⟨rfl, unmarked_hex _ _⟩⟩

theorem unmarked_spell {half : Nat → List Char} {char : Char → List Char}
    (hhalf : ∀ code, Unmarked (half code)) (hchar : ∀ c, Unmarked (char c)) (cs : List Char) :
    Unmarked (spell half char cs) := by
  induction cs using spell.induct with
  | case1 m a b rest h ih =>
    rw [spell, if_pos h]
    exact unmarked_append.mpr ⟨hhalf _, ih⟩
  | case2 m a b rest h ih =>
    rw [spell, if_neg h]
    exact unmarked_append.mpr ⟨hchar m, ih⟩
  | case3 c rest hshort ih =>
    rw [spell]
    · exact unmarked_append.mpr ⟨hchar c, ih⟩
    · exact hshort
  | case4 => exact unmarked_nil

theorem isMark_quoteFor (cs : List Char) : isMark (quoteFor cs) = false := by
  rw [quoteFor]
  split <;> rfl

theorem unmarked_quotedChar {q : Char} (hq : isMark q = false) (c : Char) :
    Unmarked (quotedChar q c) := by
  unfold quotedChar
  split
  · rename_i hc
    have hmark : isMark c = false := by
      rw [Bool.or_eq_true, beq_iff_eq, beq_iff_eq] at hc
      rcases hc with rfl | rfl
      · exact hq
      · rfl
    exact unmarked_cons.mpr ⟨rfl, unmarked_cons.mpr ⟨hmark, unmarked_nil⟩⟩
  split
  · exact unmarked_of_printed (Json.printed_of_all rfl)
  split
  · exact unmarked_of_printed (Json.printed_of_all rfl)
  split
  · exact unmarked_of_printed (Json.printed_of_all rfl)
  split
  · rename_i hprints
    exact unmarked_cons.mpr ⟨isMark_of_isPrintable hprints, unmarked_nil⟩
  · exact unmarked_escapedCode c

/-- A text in quotes holds no half, whatever it quotes. -/
theorem unmarked_quoted (cs : List Char) : Unmarked (quoted cs) := by
  have hq := isMark_quoteFor cs
  have hinside := unmarked_spell unmarked_escapedHalf (unmarked_quotedChar hq) cs
  exact unmarked_cons.mpr ⟨hq, unmarked_append.mpr ⟨hinside, unmarked_cons.mpr ⟨hq, unmarked_nil⟩⟩⟩

end Text

namespace Json

open Text (Unmarked unmarked_of_printed unmarked_append unmarked_cons unmarked_quoted unmarked_nil)

theorem unmarked_spoken_float (x : Binary64) : Unmarked (Decimal.spoken.write x) := by
  apply unmarked_of_printed
  cases x with
  | nan => exact printed_of_all rfl
  | infinite negative => cases negative <;> exact printed_of_all rfl
  | finite negative x =>
    rw [write_finite]
    exact printed_signed (printed_size _ x)

mutual

/-- A value as it is shown in a message holds no half. -/
theorem unmarked_spoken (j : Json) : Unmarked j.spoken := by
  match j with
  | .null => exact unmarked_of_printed (printed_of_all rfl)
  | .bool true => exact unmarked_of_printed (printed_of_all rfl)
  | .bool false => exact unmarked_of_printed (printed_of_all rfl)
  | .int n => exact unmarked_of_printed (printed_writeInt n)
  | .float x => exact unmarked_spoken_float x
  | .str s => exact unmarked_quoted _
  | .arr xs =>
    exact unmarked_cons.mpr ⟨rfl, unmarked_append.mpr
      ⟨unmarked_spokenList xs, unmarked_of_printed (printed_of_all rfl)⟩⟩
  | .obj ms =>
    exact unmarked_cons.mpr ⟨rfl, unmarked_append.mpr
      ⟨unmarked_spokenMembers ms, unmarked_of_printed (printed_of_all rfl)⟩⟩

theorem unmarked_spokenList (xs : List Json) : Unmarked (spokenList xs) := by
  match xs with
  | [] => exact unmarked_nil
  | [x] => exact unmarked_spoken x
  | x :: y :: rest =>
    rw [spokenList, unmarked_append, unmarked_append]
    exact ⟨⟨unmarked_spoken x, unmarked_of_printed (printed_of_all rfl)⟩,
      unmarked_spokenList (y :: rest)⟩

theorem unmarked_spokenMembers (ms : List (String × Json)) : Unmarked (spokenMembers ms) := by
  match ms with
  | [] => exact unmarked_nil
  | [(k, v)] =>
    rw [spokenMembers, unmarked_append, unmarked_append]
    exact ⟨⟨unmarked_quoted _, unmarked_of_printed (printed_of_all rfl)⟩, unmarked_spoken v⟩
  | (k, v) :: (l, w) :: rest =>
    simp only [spokenMembers, unmarked_append]
    exact ⟨⟨⟨⟨unmarked_quoted _, unmarked_of_printed (printed_of_all rfl)⟩, unmarked_spoken v⟩,
      unmarked_of_printed (printed_of_all rfl)⟩, unmarked_spokenMembers ((l, w) :: rest)⟩

end

end Json

namespace Text

theorem unmarked_join {s t : String} :
    Unmarked (s ++ t).toList ↔ Unmarked s.toList ∧ Unmarked t.toList := by
  rw [String.toList_append, unmarked_append]

theorem unmarked_ofList {cs : List Char} : Unmarked (String.ofList cs).toList ↔ Unmarked cs := by
  rw [String.toList_ofList]

/-- Fixed words in printed characters. -/
theorem unmarked_words {s : String} (h : (s.toList.all fun c => decide (Printed c)) = true) :
    Unmarked s.toList :=
  unmarked_of_printed (Json.printed_of_all h)

theorem unmarked_toString (n : Nat) : Unmarked (toString n).toList := by
  have hdigits : (toString n).toList = Decimal.digitsOf n := by
    rw [Nat.toString_eq_repr, Nat.repr, String.toList_ofList, Decimal.digitsOf]
  rw [hdigits]
  exact unmarked_of_printed (Json.digits_digitsOf n).printed

end Text

open Text (Unmarked unmarked_join unmarked_ofList unmarked_words unmarked_toString)

/-- The messages of token errors hold no half: what is not said in fixed words is a number or a value
as it is shown in messages. -/
theorem TokenError.unmarked_message (e : TokenError) : Unmarked e.message.toList := by
  cases e with
  | version found =>
    change Unmarked ("Unsupported resume token version: " ++ String.ofList found.spoken).toList
    rw [unmarked_join]
    exact ⟨unmarked_words rfl, unmarked_ofList.mpr found.unmarked_spoken⟩
  | invalid errors =>
    change Unmarked
      ("Invalid resume token payload: " ++ toString errors ++ " validation error(s)").toList
    rw [unmarked_join, unmarked_join]
    exact ⟨⟨unmarked_words rfl, unmarked_toString errors⟩, unmarked_words rfl⟩
  | _ => exact unmarked_words rfl

end Sluice
