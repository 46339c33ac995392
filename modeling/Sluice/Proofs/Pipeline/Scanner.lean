import Sluice.Proofs.Pipeline.Grammar
import Sluice.Proofs.Pipeline.Words

/-!
The scanner reads the grammar. Outside quotes it takes one piece at a time, and what it finishes on
the way depends on the piece and on the word that is open before it. It accepts every row of pieces,
with the segments of the row, and refuses every text that breaks off.
-/

namespace Sluice

namespace Lexeme

def OpenWord.after (word : Option OpenWord) (p : Piece) : Option OpenWord :=
  match p with
  | .blank _ | .bar => none
  | p =>
    let w := word.getD ⟨[], p.quotes⟩
    some ⟨p.text.reverse ++ w.latest, w.quoted⟩

/-- What a piece finishes with this word open before it. -/
def finishedBy (word : Option OpenWord) : Piece → List Lexeme
  | .blank _ => finished word
  | .bar => finished word ++ [.bar]
  | _ => []

theorem finishedBy_blank (word : Option OpenWord) (c : Char) :
    finishedBy word (.blank c) = finished word := rfl

theorem finishedBy_bar (word : Option OpenWord) :
    finishedBy word .bar = finished word ++ [.bar] := rfl

/-- What a row of pieces finishes to the end of the text. -/
def ofPieces (word : Option OpenWord) : List Piece → List Lexeme
  | [] => finished word
  | p :: ps => finishedBy word p ++ ofPieces (OpenWord.after word p) ps

section Scan

variable {s next : Scanner} {w : OpenWord} {start position : Nat}

theorem map_nil_append (r : Except SyntaxError (List Lexeme)) : r.map ([] ++ ·) = r := by
  cases r <;> rfl

/-- A character that finishes nothing only moves the scanner. -/
theorem scan_of_step {c : Char} (h : s.step c = ([], next)) (cs : List Char) :
    scan s (c :: cs) = scan next cs := by
  rw [scan, h]
  exact map_nil_append (scan next cs)

theorem step_single (word : Option OpenWord) (position : Nat) :
    Scanner.step ⟨.plain, word, position⟩ '\'' =
      ([], ⟨.single position, some (word.getD ⟨[], true⟩), position + 1⟩) :=
  rfl

theorem step_double (word : Option OpenWord) (position : Nat) :
    Scanner.step ⟨.plain, word, position⟩ '"' =
      ([], ⟨.double position, some (word.getD ⟨[], true⟩), position + 1⟩) :=
  rfl

theorem scan_single {body : List Char} (h : '\'' ∉ body) (w : OpenWord) (position : Nat)
    (rest : List Char) :
    scan ⟨.single start, some w, position⟩ (body ++ rest) =
      scan ⟨.single start, some ⟨body.reverse ++ w.latest, w.quoted⟩, position + body.length⟩
        rest := by
  induction body generalizing w position with
  | nil => rfl
  | cons c body ih =>
    obtain ⟨hc, hbody⟩ := not_or.mp (mt List.mem_cons.mpr h)
    have hstep : Scanner.step ⟨.single start, some w, position⟩ c =
        ([], ⟨.single start, some ⟨c :: w.latest, w.quoted⟩, position + 1⟩) := by
      simp only [Scanner.step, if_neg (Ne.symm hc), Scanner.push, Scanner.openWord,
        Option.getD_some]
    rw [List.cons_append, scan_of_step hstep, ih hbody, List.reverse_cons, List.append_assoc,
      List.length_cons, Nat.add_right_comm, Nat.add_assoc]
    rfl

theorem scan_double {raw body : List Char} (h : Piece.Quotes raw body) (w : OpenWord)
    (position : Nat) (rest : List Char) :
    scan ⟨.double start, some w, position⟩ (raw ++ rest) =
      scan ⟨.double start, some ⟨body.reverse ++ w.latest, w.quoted⟩, position + raw.length⟩
        rest := by
  induction h generalizing w position with
  | nil => rfl
  | @literal c raw body hquote hslash h ih =>
    have hstep : Scanner.step ⟨.double start, some w, position⟩ c =
        ([], ⟨.double start, some ⟨c :: w.latest, w.quoted⟩, position + 1⟩) := by
      simp only [Scanner.step, if_neg hquote, if_neg hslash, Scanner.push, Scanner.openWord,
        Option.getD_some]
    rw [List.cons_append, scan_of_step hstep, ih, List.reverse_cons, List.append_assoc,
      List.length_cons, Nat.add_right_comm, Nat.add_assoc]
    rfl
  | @escaped c raw body hc h ih =>
    have hslash : Scanner.step ⟨.double start, some w, position⟩ '\\' =
        ([], ⟨.doubleEscape start, some w, position + 1⟩) := rfl
    have hstep : Scanner.step ⟨.doubleEscape start, some w, position + 1⟩ c =
        ([], ⟨.double start, some ⟨c :: w.latest, w.quoted⟩, position + 1 + 1⟩) := by
      simp only [Scanner.step, if_pos hc, Scanner.push, Scanner.openWord, Option.getD_some]
    rw [List.cons_append, List.cons_append, scan_of_step hslash, scan_of_step hstep, ih,
      List.reverse_cons, List.append_assoc, List.length_cons, List.length_cons,
      Nat.add_right_comm, Nat.add_right_comm position, Nat.add_assoc, Nat.add_assoc]
    rfl
  | @backslash c raw body hquote hslash h ih =>
    have hescape : Scanner.step ⟨.double start, some w, position⟩ '\\' =
        ([], ⟨.doubleEscape start, some w, position + 1⟩) := rfl
    have hstep : Scanner.step ⟨.doubleEscape start, some w, position + 1⟩ c =
        ([], ⟨.double start, some ⟨c :: '\\' :: w.latest, w.quoted⟩, position + 1 + 1⟩) := by
      simp only [Scanner.step, if_neg (not_or.mpr ⟨hquote, hslash⟩), Scanner.push,
        Scanner.openWord, Option.getD_some]
    rw [List.cons_append, List.cons_append, scan_of_step hescape, scan_of_step hstep, ih,
      List.reverse_cons, List.reverse_cons, List.append_assoc, List.append_assoc, List.length_cons,
      List.length_cons, Nat.add_right_comm, Nat.add_right_comm position, Nat.add_assoc,
      Nat.add_assoc]
    rfl

/-- The scanner over one piece, outside quotes before and after it. -/
theorem scan_piece {p : Piece} {cs : List Char} (h : p.Spelled cs) (word : Option OpenWord)
    (position : Nat) (rest : List Char) :
    scan ⟨.plain, word, position⟩ (cs ++ rest) =
      (scan ⟨.plain, OpenWord.after word p, position + cs.length⟩ rest).map
        (finishedBy word p ++ ·) := by
  cases p with
  | plain c =>
    obtain ⟨rfl, hsingle, hdouble, hslash, hbar, hblank⟩ := h
    have hstep : Scanner.step ⟨.plain, word, position⟩ c =
        ([], ⟨.plain, OpenWord.after word (.plain c), position + 1⟩) := by
      simp only [Scanner.step, if_neg hsingle, if_neg hdouble, if_neg hslash, if_neg hbar, hblank,
        Bool.false_eq_true, ↓reduceIte]
      rfl
    rw [List.singleton_append, scan_of_step hstep]
    exact (map_nil_append _).symm
  | escaped c =>
    subst h
    have hslash : Scanner.step ⟨.plain, word, position⟩ '\\' =
        ([], ⟨.escape, word, position + 1⟩) := rfl
    have hstep : Scanner.step ⟨.escape, word, position + 1⟩ c =
        ([], ⟨.plain, OpenWord.after word (.escaped c), position + 2⟩) := rfl
    rw [List.cons_append, List.singleton_append, scan_of_step hslash, scan_of_step hstep]
    exact (map_nil_append _).symm
  | single body =>
    obtain ⟨rfl, hbody⟩ := h
    let w := word.getD ⟨[], true⟩
    have hclose : Scanner.step ⟨.single position, some ⟨body.reverse ++ w.latest, w.quoted⟩,
        position + 1 + body.length⟩ '\'' =
          ([], ⟨.plain, OpenWord.after word (.single body), position + 1 + body.length + 1⟩) := rfl
    rw [List.cons_append, List.append_assoc, scan_of_step (step_single _ _), scan_single hbody,
      List.singleton_append, scan_of_step hclose, List.length_cons, List.length_append,
      Nat.add_right_comm position, Nat.add_assoc position]
    exact (map_nil_append _).symm
  | double body =>
    obtain ⟨raw, rfl, hraw⟩ := h
    let w := word.getD ⟨[], true⟩
    have hclose : Scanner.step ⟨.double position, some ⟨body.reverse ++ w.latest, w.quoted⟩,
        position + 1 + raw.length⟩ '"' =
          ([], ⟨.plain, OpenWord.after word (.double body), position + 1 + raw.length + 1⟩) := rfl
    rw [List.cons_append, List.append_assoc, scan_of_step (step_double _ _), scan_double hraw,
      List.singleton_append, scan_of_step hclose, List.length_cons, List.length_append,
      Nat.add_right_comm position, Nat.add_assoc position]
    exact (map_nil_append _).symm
  | blank c =>
    obtain ⟨rfl, hblank⟩ := h
    have hplain : c ≠ '\'' ∧ c ≠ '"' ∧ c ≠ '\\' ∧ c ≠ '|' := by
      refine ⟨?_, ?_, ?_, ?_⟩
      all_goals
        rintro rfl
        exact absurd hblank (by decide)
    have hstep : Scanner.step ⟨.plain, word, position⟩ c =
        (finished word, ⟨.plain, none, position + 1⟩) := by
      simp only [Scanner.step, if_neg hplain.1, if_neg hplain.2.1, if_neg hplain.2.2.1,
        if_neg hplain.2.2.2, hblank, ↓reduceIte]
      rfl
    rw [List.singleton_append, scan, hstep]
    rfl
  | bar =>
    subst h
    rfl

/-- A row of pieces is accepted and finishes what its pieces finish. -/
theorem scans_of_spells {ps : List Piece} {cs : List Char} (h : Piece.Spells ps cs)
    (word : Option OpenWord) : Scans word cs (ofPieces word ps) := by
  intro position
  induction h generalizing word position with
  | nil => rfl
  | cons hp _ ih =>
    rw [scan_piece hp, ih]
    rfl

/-- What breaks off at once is refused. -/
theorem scan_open {cs : List Char} (h : Piece.Open cs) (word : Option OpenWord) (position : Nat) :
    ∃ e, scan ⟨.plain, word, position⟩ cs = .error e := by
  cases h with
  | @single body hbody =>
    refine ⟨.unterminatedQuote '\'' position, ?_⟩
    rw [scan_of_step (step_single _ _), ← List.append_nil body, scan_single hbody]
    rfl
  | @double raw body hraw =>
    refine ⟨.unterminatedQuote '"' position, ?_⟩
    rw [scan_of_step (step_double _ _), ← List.append_nil raw, scan_double hraw]
    rfl
  | @doubleEscape raw body hraw =>
    refine ⟨.unterminatedQuote '"' position, ?_⟩
    rw [scan_of_step (step_double _ _), scan_double hraw]
    rfl
  | escape => exact ⟨.danglingEscape, rfl⟩

/-- A text that breaks off is refused. -/
theorem scan_breaksOff {cs : List Char} (h : Piece.BreaksOff cs) (word : Option OpenWord)
    (position : Nat) : ∃ e, scan ⟨.plain, word, position⟩ cs = .error e := by
  obtain ⟨ps, front, last, rfl, hfront, hlast⟩ := h
  induction hfront generalizing word position with
  | nil => exact scan_open hlast word position
  | @cons p ps head rest hp _ ih =>
    obtain ⟨e, he⟩ := ih (OpenWord.after word p) (position + head.length)
    exact ⟨e, by rw [List.append_assoc, scan_piece hp, he]; rfl⟩

end Scan

def opened : List Piece → Option OpenWord
  | [] => none
  | p :: ps => some ⟨((p :: ps).flatMap Piece.text).reverse, p.quotes⟩

theorem after_opened {p : Piece} (hp : p.Inner) (inner : List Piece) :
    OpenWord.after (opened inner) p = opened (inner ++ [p]) := by
  have hafter (word : Option OpenWord) : OpenWord.after word p =
      some ⟨p.text.reverse ++ (word.getD ⟨[], p.quotes⟩).latest,
        (word.getD ⟨[], p.quotes⟩).quoted⟩ := by
    cases p with
    | blank c => exact absurd hp.1 (by simp [Piece.isBlank])
    | bar => exact absurd hp.2 (by decide)
    | _ => rfl
  rw [hafter]
  cases inner with
  | nil => simp [opened]
  | cons first inner => simp [opened]

/-- Pieces that stand together finish their word. -/
theorem finished_opened {inner : List Piece} (h : ∀ p ∈ inner, p.Inner) :
    finished (opened inner) = (Piece.words inner).map .word := by
  rw [Piece.words, List.splitOnP_eq_singleton fun p hp => (h p hp).1]
  cases inner with
  | nil => rfl
  | cons p inner => simp [finished, opened, Scanner.flush, Piece.word]

theorem finishedBy_inner {p : Piece} (hp : p.Inner) (word : Option OpenWord) :
    finishedBy word p = [] := by
  cases p with
  | blank c => exact absurd hp.1 (by simp [Piece.isBlank])
  | bar => exact absurd hp.2 (by decide)
  | _ => rfl

/-- The segments of what a row of pieces finishes behind pieces that stand together. -/
theorem segments_ofPieces {inner : List Piece} (h : ∀ p ∈ inner, p.Inner) (ps : List Piece) :
    segments (ofPieces (opened inner) ps) = Piece.segments (inner ++ ps) := by
  -- A blank or a bar ends the open word, and the rest begins with none.
  induction ps generalizing inner with
  | nil =>
    rw [ofPieces, finished_opened h, segments_words, List.append_nil,
      Piece.segments_of_no_bar fun p hp => (h p hp).2]
  | cons p ps ih =>
    have hbars : ∀ p ∈ inner, p.isBar = false := fun p hp => (h p hp).2
    have hrest : segments (ofPieces (opened []) ps) = Piece.segments ([] ++ ps) :=
      ih (List.forall_mem_nil _)
    rcases p.inner_or with hp | ⟨c, rfl⟩ | rfl
    · have hinner : ∀ q ∈ inner ++ [p], q.Inner := by
        rw [List.forall_mem_append]
        exact ⟨h, List.forall_mem_singleton.mpr hp⟩
      rw [ofPieces, finishedBy_inner hp, List.nil_append, after_opened hp, ih hinner,
        List.append_assoc, List.singleton_append]
    · obtain ⟨first, rest, hfirst⟩ := List.exists_cons_of_ne_nil (Piece.segments_ne_nil ps)
      rw [Piece.segments_append_blank hbars c hfirst, ofPieces, finishedBy_blank, finished_opened h]
      exact segments_words_append _ (hrest.trans hfirst)
    · rw [Piece.segments_append_bar, Piece.segments_of_no_bar hbars, ofPieces, finishedBy_bar,
        finished_opened h, List.append_assoc, List.singleton_append, segments_bar]
      exact congrArg _ hrest

theorem segments_ne_nil (ls : List Lexeme) : segments ls ≠ [] := by
  match ls with
  | [] | .bar :: _ => exact List.cons_ne_nil _ _
  | .word _ :: _ =>
    rw [segments]
    split
    · exact List.cons_ne_nil _ _
    · exact List.cons_ne_nil _ _

/-- One segment without words is no words and no bars. -/
theorem segments_eq_singleton_nil {ls : List Lexeme} : segments ls = [[]] ↔ ls = [] := by
  cases ls with
  | nil => exact iff_of_true rfl rfl
  | cons l rest =>
    refine iff_of_false ?_ (List.cons_ne_nil _ _)
    cases l with
    | bar =>
      intro h
      exact segments_ne_nil rest (List.cons.inj h).2
    | word w =>
      obtain ⟨first, more, hfirst⟩ := List.exists_cons_of_ne_nil (segments_ne_nil rest)
      rw [segments, hfirst]
      simp

/-- A text is refused by the scanner exactly if it breaks off. -/
theorem ofText_error_iff (cs : List Char) :
    (∃ e, ofText cs = .error e) ↔ Piece.BreaksOff cs := by
  constructor
  · rintro ⟨e, he⟩
    refine (Piece.spells_or_breaksOff cs).resolve_left ?_
    rintro ⟨ps, hps⟩
    rw [ofText, Scanner.start, scans_of_spells hps none 0] at he
    exact nomatch he
  · intro h
    exact scan_breaksOff h none 0

/-- The words and bars of a row of pieces have its segments. -/
theorem ofText_of_spells {ps : List Piece} {cs : List Char} (h : Piece.Spells ps cs) :
    ∃ ls, ofText cs = .ok ls ∧ segments ls = Piece.segments ps :=
  ⟨ofPieces none ps, scans_of_spells h none 0, segments_ofPieces (List.forall_mem_nil _) ps⟩

end Lexeme

end Sluice
