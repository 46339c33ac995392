import Mathlib.Data.List.Basic
import Sluice.Pipeline.Parse
import Sluice.Pipeline.Printer

/-!
The words of a printed pipeline. Quotes take every character as it is, so the scanner finishes one
word for each name, bare word and flag that was printed, and a bar between two stages. A word counts
as begun without quotes only if it is a flag, whose dashes stand before the first quote.
-/

namespace Sluice

namespace Lexeme

def finished (word : Option OpenWord) : List Lexeme :=
  Scanner.flush ⟨.plain, word, 0⟩

/-- Outside quotes, with this word open and at any position, the rest of a text is accepted and
finishes these pieces. -/
def Scans (word : Option OpenWord) (cs : List Char) (out : List Lexeme) : Prop :=
  ∀ position, scan ⟨.plain, word, position⟩ cs = .ok out

/-- The rest of a text finishes whatever word is open before it begins with its own pieces. -/
def Ends (cs : List Char) (out : List Lexeme) : Prop :=
  ∀ word, Scans word cs (finished word ++ out)

variable {word : Option OpenWord} {cs : List Char} {out : List Lexeme}

theorem ends_nil : Ends [] [] := by
  intro word position
  rw [List.append_nil]
  rfl

theorem Scans.bar (h : Scans none cs out) : Ends ('|' :: cs) (.bar :: out) := by
  intro word position
  have hscan := h (position + 1)
  simp only [scan, Scanner.step, Char.reduceEq, ↓reduceIte, hscan, Except.map, finished,
    Scanner.flush, List.append_assoc, List.singleton_append]

theorem Scans.blank (h : Scans none cs out) : Ends (' ' :: cs) out := by
  intro word position
  have hscan := h (position + 1)
  have hblank : Text.isBlank ' ' = true := rfl
  simp only [scan, Scanner.step, Char.reduceEq, ↓reduceIte, hblank, hscan, Except.map, finished,
    Scanner.flush]

/-- A character that has no meaning of its own goes into the word. -/
theorem Scans.push {c : Char} {latest : List Char} {quoted : Bool}
    (hc : c ≠ '\'' ∧ c ≠ '"' ∧ c ≠ '\\' ∧ c ≠ '|' ∧ Text.isBlank c = false)
    (hword : word.getD ⟨[], false⟩ = ⟨latest, quoted⟩)
    (h : Scans (some ⟨c :: latest, quoted⟩) cs out) : Scans word (c :: cs) out := by
  intro position
  obtain ⟨hsingle, hdouble, hslash, hbar, hblank⟩ := hc
  have hscan := h (position + 1)
  simp only [scan, Scanner.step, if_neg hsingle, if_neg hdouble, if_neg hslash, if_neg hbar, hblank,
    Bool.false_eq_true, ↓reduceIte, Scanner.push, Scanner.openWord, hword, hscan, Except.map,
    List.nil_append]

/-- Inside quotes the body of a quoted text goes into the word. -/
theorem scan_quotedBody (s : List Char) {latest : List Char} {quoted : Bool}
    (h : Scans (some ⟨s.reverse ++ latest, quoted⟩) cs out) (start position : Nat) :
    scan ⟨.single start, some ⟨latest, quoted⟩, position⟩
      (s.flatMap (fun c => if c = '\'' then ['\'', '\\', '\'', '\''] else [c]) ++ '\'' :: cs) =
        .ok out := by
  induction s generalizing latest start position with
  | nil =>
    have hscan := h (position + 1)
    simp only [List.reverse_nil, List.nil_append] at hscan
    simp only [List.flatMap_nil, List.nil_append, scan, Scanner.step, ↓reduceIte, hscan, Except.map]
  | cons c s ih =>
    rw [List.reverse_cons, List.append_assoc, List.singleton_append] at h
    rw [List.flatMap_cons, List.append_assoc]
    by_cases hc : c = '\''
    · -- The quotes are left, the character is escaped, and the quotes are opened again.
      subst hc
      have hrest := ih h (position + 1 + 1 + 1) (position + 1 + 1 + 1 + 1)
      simp only [↓reduceIte, List.cons_append, List.nil_append, scan, Scanner.step, Char.reduceEq,
        Scanner.push, Scanner.openWord, Option.getD_some, hrest, Except.map]
    · have hrest := ih h start (position + 1)
      simp only [if_neg hc, List.cons_append, List.nil_append, scan, Scanner.step, Scanner.push,
        Scanner.openWord, Option.getD_some, hrest, Except.map]

/-- A quoted text goes into the word that is open, or begins a quoted one. -/
theorem Scans.singleQuoted (s : String) {latest : List Char} {quoted : Bool}
    (hword : word.getD ⟨[], true⟩ = ⟨latest, quoted⟩)
    (h : Scans (some ⟨s.toList.reverse ++ latest, quoted⟩) cs out) :
    Scans word (Sluice.singleQuoted s ++ cs) out := by
  intro position
  have hbody := scan_quotedBody s.toList h position (position + 1)
  rw [Sluice.singleQuoted, List.append_assoc, List.cons_append, List.singleton_append]
  simp only [scan, Scanner.step, ↓reduceIte, Scanner.openWord, hword, hbody, Except.map,
    List.nil_append]

/-- A text in quotes is a word of its own where the text after it ends words. -/
theorem Ends.scans_quoted (h : Ends cs out) (s : String) :
    Scans none (Sluice.singleQuoted s ++ cs) (.word ⟨s, true⟩ :: out) := by
  apply Scans.singleQuoted s rfl
  have hend := h (some ⟨s.toList.reverse ++ [], true⟩)
  simpa only [finished, Scanner.flush, List.append_nil, List.reverse_reverse, String.ofList_toList,
    List.singleton_append] using hend

end Lexeme

namespace Argument

def print : Argument → List Char
  | .bare s => ' ' :: singleQuoted s
  | .flag name value => [' ', '-', '-'] ++ singleQuoted name ++ '=' :: singleQuoted value

def word : Argument → Word
  | .bare s => ⟨s, true⟩
  | .flag name value => ⟨String.ofList ('-' :: '-' :: (name.toList ++ '=' :: value.toList)), false⟩

theorem ends_print (a : Argument) {cs : List Char} {out : List Lexeme} (h : Lexeme.Ends cs out) :
    Lexeme.Ends (a.print ++ cs) (.word a.word :: out) := by
  cases a with
  | bare s => exact (h.scans_quoted s).blank
  | flag name value =>
    have hprint : (flag name value).print ++ cs =
        ' ' :: '-' :: '-' :: (singleQuoted name ++ '=' :: (singleQuoted value ++ cs)) := by
      simp [print]
    rw [hprint]
    apply Lexeme.Scans.blank
    apply Lexeme.Scans.push (by decide) rfl
    apply Lexeme.Scans.push (by decide) rfl
    apply Lexeme.Scans.singleQuoted name rfl
    apply Lexeme.Scans.push (by decide) rfl
    apply Lexeme.Scans.singleQuoted value rfl
    have hend := h (some ⟨value.toList.reverse ++ '=' :: (name.toList.reverse ++ ['-', '-']), false⟩)
    simpa [Lexeme.finished, Lexeme.Scanner.flush, word] using hend

theorem ends_prints (as : List Argument) {cs : List Char} {out : List Lexeme}
    (h : Lexeme.Ends cs out) :
    Lexeme.Ends (as.flatMap print ++ cs) (as.map (.word ∘ word) ++ out) := by
  induction as with
  | nil => exact h
  | cons a as ih =>
    rw [List.flatMap_cons, List.append_assoc]
    exact a.ends_print ih

end Argument

def Args.arguments (args : Args) : List Argument :=
  args.flatMap fun (name, v) => v.texts.map (if name = bareName then .bare else .flag name)

namespace Invocation

theorem print_eq (stage : Invocation) :
    stage.print = singleQuoted stage.name ++ stage.args.arguments.flatMap Argument.print := by
  rw [print, Args.arguments, List.flatMap_assoc]
  congr 2
  funext kv
  obtain ⟨name, v⟩ := kv
  simp only
  split
  · rw [List.flatMap_map]
    rfl
  · rw [List.flatMap_map]
    rfl

def words (stage : Invocation) : List Word :=
  ⟨stage.name, true⟩ :: stage.args.arguments.map Argument.word

theorem scans_print (stage : Invocation) {cs : List Char} {out : List Lexeme}
    (h : Lexeme.Ends cs out) :
    Lexeme.Scans none (stage.print ++ cs) (stage.words.map .word ++ out) := by
  rw [print_eq, List.append_assoc, words, List.map_cons, List.map_map]
  exact (Argument.ends_prints stage.args.arguments h).scans_quoted stage.name

end Invocation

namespace Lexeme

/-- Words in front go into the first segment. -/
theorem segments_words_append (ws : List Word) {ls : List Lexeme} {first : List Word}
    {rest : List (List Word)} (h : segments ls = first :: rest) :
    segments (ws.map .word ++ ls) = (ws ++ first) :: rest := by
  induction ws with
  | nil => exact h
  | cons w ws ih => rw [List.map_cons, List.cons_append, segments, ih, List.cons_append]

theorem segments_words (ws : List Word) : segments (ws.map .word) = [ws] := by
  have hsegments : segments (ws.map .word ++ []) = _ := segments_words_append ws rfl
  rwa [List.append_nil, List.append_nil] at hsegments

theorem segments_bar (ws : List Word) (rest : List Lexeme) :
    segments (ws.map .word ++ .bar :: rest) = ws :: segments rest := by
  rw [segments_words_append ws rfl, List.append_nil]

end Lexeme

/-- A printed pipeline of at least one stage has one segment for each of them, with its words. -/
theorem Pipeline.scans_print {p : Pipeline} (h : p ≠ []) :
    ∃ out, Lexeme.Scans none p.print out ∧ out ≠ [] ∧
      Lexeme.segments out = p.map Invocation.words := by
  induction p with
  | nil => exact absurd rfl h
  | cons stage rest ih =>
    cases rest with
    | nil =>
      refine ⟨stage.words.map .word, ?_, List.cons_ne_nil _ _, Lexeme.segments_words stage.words⟩
      have hscans := stage.scans_print Lexeme.ends_nil
      rwa [List.append_nil, List.append_nil] at hscans
    | cons next rest =>
      obtain ⟨out, hscans, -, hsegments⟩ := ih (List.cons_ne_nil _ _)
      refine ⟨stage.words.map .word ++ .bar :: out, ?_, List.cons_ne_nil _ _, ?_⟩
      · rw [print]
        exact stage.scans_print hscans.bar
      · rw [Lexeme.segments_bar, hsegments]
        rfl

end Sluice
