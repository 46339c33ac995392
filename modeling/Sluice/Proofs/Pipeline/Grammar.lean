import Mathlib.Data.List.Induction
import Sluice.Pipeline.Lexeme

/-!
The grammar of a pipeline text, apart from the scanner that reads it. A text is a row of pieces:
characters that stand for themselves, escaped characters, quoted bodies, blanks and bars. Every text
either is such a row to its end or breaks off inside a last piece. The bars of the row separate its
segments, the blanks of a segment its words.
-/

namespace Sluice

/-- A piece of a pipeline text. Quotes hold the text that they stand for. -/
inductive Piece where
  | plain (c : Char)
  | escaped (c : Char)
  | single (body : List Char)
  | double (body : List Char)
  | blank (c : Char)
  | bar
  deriving DecidableEq

namespace Piece

/-- What is written between double quotes for a body. A backslash that stands before a double quote
or a backslash escapes it, any other stands for itself. -/
inductive Quotes : List Char → List Char → Prop
  | nil : Quotes [] []
  | literal {c : Char} {raw body : List Char} :
      c ≠ '"' → c ≠ '\\' → Quotes raw body → Quotes (c :: raw) (c :: body)
  | escaped {c : Char} {raw body : List Char} :
      c = '"' ∨ c = '\\' → Quotes raw body → Quotes ('\\' :: c :: raw) (c :: body)
  | backslash {c : Char} {raw body : List Char} :
      c ≠ '"' → c ≠ '\\' → Quotes raw body → Quotes ('\\' :: c :: raw) ('\\' :: c :: body)

def Spelled : Piece → List Char → Prop
  | .plain c, cs => cs = [c] ∧ c ≠ '\'' ∧ c ≠ '"' ∧ c ≠ '\\' ∧ c ≠ '|' ∧ Text.isBlank c = false
  | .escaped c, cs => cs = ['\\', c]
  | .single body, cs => cs = '\'' :: (body ++ ['\'']) ∧ '\'' ∉ body
  | .double body, cs => ∃ raw, cs = '"' :: (raw ++ ['"']) ∧ Quotes raw body
  | .blank c, cs => cs = [c] ∧ Text.isBlank c = true
  | .bar, cs => cs = ['|']

/-- A text that is a row of pieces to its end. -/
inductive Spells : List Piece → List Char → Prop
  | nil : Spells [] []
  | cons {p : Piece} {ps : List Piece} {cs rest : List Char} :
      p.Spelled cs → Spells ps rest → Spells (p :: ps) (cs ++ rest)

/-- The beginning of a piece that is not finished: an open quote, or a backslash with nothing after
it. -/
inductive Open : List Char → Prop
  | single {body : List Char} : '\'' ∉ body → Open ('\'' :: body)
  | double {raw body : List Char} : Quotes raw body → Open ('"' :: raw)
  | doubleEscape {raw body : List Char} : Quotes raw body → Open ('"' :: (raw ++ ['\\']))
  | escape : Open ['\\']

def BreaksOff (cs : List Char) : Prop :=
  ∃ ps front last, cs = front ++ last ∧ Spells ps front ∧ Open last

def isBar (p : Piece) : Bool :=
  p == .bar

def isBlank : Piece → Bool
  | .blank _ => true
  | _ => false

def Inner (p : Piece) : Prop :=
  p.isBlank = false ∧ p.isBar = false

theorem inner_or (p : Piece) : p.Inner ∨ (∃ c, p = .blank c) ∨ p = .bar := by
  cases p with
  | blank c => exact .inr (.inl ⟨c, rfl⟩)
  | bar => exact .inr (.inr rfl)
  | _ => exact .inl ⟨rfl, rfl⟩

/-- What a piece adds to the word it belongs to. -/
def text : Piece → List Char
  | .plain c | .escaped c => [c]
  | .single body | .double body => body
  | .blank _ | .bar => []

/-- Whether a word that begins with the piece counts as quoted. -/
def quotes : Piece → Bool
  | .escaped _ | .single _ | .double _ => true
  | .plain _ | .blank _ | .bar => false

/-- The word of pieces that stand together. -/
def word (ps : List Piece) : Word :=
  ⟨String.ofList (ps.flatMap text), ps.head?.any quotes⟩

def words (ps : List Piece) : List Word :=
  ((ps.splitOnP isBlank).filter (!·.isEmpty)).map word

def segments (ps : List Piece) : List (List Word) :=
  (ps.splitOnP isBar).map words

theorem words_append_blank (ps qs : List Piece) (c : Char) :
    words (ps ++ .blank c :: qs) = words ps ++ words qs := by
  rw [words, List.splitOnP_append_cons ps qs rfl, List.filter_append, List.map_append]
  rfl

theorem segments_append_bar (ps qs : List Piece) :
    segments (ps ++ .bar :: qs) = segments ps ++ segments qs := by
  rw [segments, List.splitOnP_append_cons ps qs rfl, List.map_append]
  rfl

theorem segments_of_no_bar {ps : List Piece} (h : ∀ p ∈ ps, p.isBar = false) :
    segments ps = [words ps] := by
  rw [segments, List.splitOnP_eq_singleton h]
  rfl

/-- A blank in a segment only separates words. -/
theorem segments_append_blank {front ps : List Piece} (hfront : ∀ p ∈ front, p.isBar = false)
    (c : Char) {first : List Word} {rest : List (List Word)} (h : segments ps = first :: rest) :
    segments (front ++ .blank c :: ps) = (words front ++ first) :: rest := by
  obtain ⟨qs, more, hsplit⟩ := List.exists_cons_of_ne_nil (List.splitOnP_ne_nil isBar ps)
  have hsplits : (front ++ .blank c :: ps).splitOnP isBar = (front ++ .blank c :: qs) :: more := by
    have hblank : (Piece.blank c :: ps).splitOnP isBar = (.blank c :: qs) :: more := by
      rw [List.splitOnP_cons_eq_if_modifyHead, hsplit]
      rfl
    induction front with
    | nil => exact hblank
    | cons p front ih =>
      rw [List.forall_mem_cons] at hfront
      rw [List.cons_append, List.splitOnP_cons_eq_if_modifyHead, hfront.1, ih hfront.2]
      rfl
  rw [segments, hsplit, List.map_cons, List.cons.injEq] at h
  rw [segments, hsplits, List.map_cons, words_append_blank, h.1, h.2]

theorem segments_ne_nil (ps : List Piece) : segments ps ≠ [] := by
  rw [segments, ne_eq, List.map_eq_nil_iff]
  exact List.splitOnP_ne_nil isBar ps

/-- One segment more than there are bars. -/
theorem length_segments (ps : List Piece) : (segments ps).length = ps.count .bar + 1 := by
  rw [segments, List.length_map]
  induction ps with
  | nil => rfl
  | cons p ps ih =>
    rw [List.splitOnP_cons_eq_if_modifyHead]
    by_cases hbar : p = .bar
    · subst hbar
      rw [if_pos (by rfl), List.length_cons, ih, List.count_cons_self]
    · rw [if_neg (by simpa [isBar] using hbar), List.length_modifyHead, ih,
        List.count_cons_of_ne hbar]

/-- A row without bars and words has one segment, without words. -/
theorem segments_eq_singleton_nil {ps : List Piece} :
    segments ps = [[]] ↔ .bar ∉ ps ∧ words ps = [] := by
  by_cases hbar : .bar ∈ ps
  · refine iff_of_false ?_ fun h => h.1 hbar
    intro heq
    have hlength := length_segments ps
    have hcount := List.count_pos_iff.mpr hbar
    rw [heq, List.length_singleton] at hlength
    omega
  · have hbars : ∀ p ∈ ps, p.isBar = false := by
      intro p hp
      exact beq_eq_false_iff_ne.mpr (ne_of_mem_of_not_mem hp hbar)
    rw [segments_of_no_bar hbars, List.cons.injEq, and_iff_left rfl, and_iff_right hbar]

/-- Between double quotes a text comes to the closing quote or breaks off, at most with a backslash
behind what is complete. -/
def ClosesOrBreaksOff (cs : List Char) : Prop :=
  (∃ raw body rest, cs = raw ++ '"' :: rest ∧ Quotes raw body) ∨
    ∃ raw body, (cs = raw ∨ cs = raw ++ ['\\']) ∧ Quotes raw body

theorem ClosesOrBreaksOff.prepend (front : List Char) {cs : List Char}
    (hfront : ∀ raw body, Quotes raw body → ∃ body', Quotes (front ++ raw) body')
    (h : ClosesOrBreaksOff cs) : ClosesOrBreaksOff (front ++ cs) := by
  rcases h with ⟨raw, body, rest, rfl, hraw⟩ | ⟨raw, body, hcs, hraw⟩
  · obtain ⟨body', hraw'⟩ := hfront raw body hraw
    exact .inl ⟨front ++ raw, body', rest, (List.append_assoc _ _ _).symm, hraw'⟩
  · obtain ⟨body', hraw'⟩ := hfront raw body hraw
    refine .inr ⟨front ++ raw, body', ?_, hraw'⟩
    rcases hcs with rfl | rfl
    · exact .inl rfl
    · exact .inr (List.append_assoc _ _ _).symm

theorem closesOrBreaksOff (cs : List Char) : ClosesOrBreaksOff cs := by
  -- An escape is two characters long, so the induction steps over one character or over two.
  have hclosed (rest : List Char) : ClosesOrBreaksOff ('"' :: rest) :=
    .inl ⟨[], [], rest, rfl, .nil⟩
  have hliteral {c : Char} {cs : List Char} (hquote : c ≠ '"') (hslash : c ≠ '\\')
      (h : ClosesOrBreaksOff cs) : ClosesOrBreaksOff (c :: cs) :=
    h.prepend [c] fun _ body hraw => ⟨c :: body, .literal hquote hslash hraw⟩
  induction cs using List.twoStepInduction with
  | nil => exact .inr ⟨[], [], .inl rfl, .nil⟩
  | singleton c =>
    by_cases hquote : c = '"'
    · exact hquote ▸ hclosed []
    by_cases hslash : c = '\\'
    · exact .inr ⟨[], [], .inr (hslash ▸ rfl), .nil⟩
    exact hliteral hquote hslash (.inr ⟨[], [], .inl rfl, .nil⟩)
  | cons_cons c d cs ih ihtail =>
    by_cases hquote : c = '"'
    · exact hquote ▸ hclosed (d :: cs)
    by_cases hslash : c = '\\'
    · subst hslash
      apply ih.prepend ['\\', d]
      intro raw body hraw
      by_cases hd : d = '"' ∨ d = '\\'
      · exact ⟨d :: body, .escaped hd hraw⟩
      · exact ⟨'\\' :: d :: body, .backslash (not_or.mp hd).1 (not_or.mp hd).2 hraw⟩
    exact hliteral hquote hslash (ihtail d)

/-- A text that is not empty begins with a piece or with the beginning of one. -/
theorem spelled_or_open {cs : List Char} (h : cs ≠ []) :
    (∃ p head rest, cs = head ++ rest ∧ head ≠ [] ∧ Spelled p head) ∨ Open cs := by
  obtain ⟨c, cs, rfl⟩ := List.exists_cons_of_ne_nil h
  by_cases hsingle : c = '\''
  · subst hsingle
    by_cases hclosed : '\'' ∈ cs
    · obtain ⟨body, rest, rfl, hbody⟩ := List.eq_append_cons_of_mem hclosed
      refine .inl ⟨.single body, '\'' :: (body ++ ['\'']), rest, ?_, List.cons_ne_nil _ _, rfl,
        hbody⟩
      simp only [List.cons_append, List.append_assoc, List.nil_append]
    · exact .inr (.single hclosed)
  by_cases hdouble : c = '"'
  · subst hdouble
    rcases closesOrBreaksOff cs with ⟨raw, body, rest, rfl, hraw⟩ | ⟨raw, body, rfl | rfl, hraw⟩
    · refine .inl ⟨.double body, '"' :: (raw ++ ['"']), rest, ?_, List.cons_ne_nil _ _, raw, rfl,
        hraw⟩
      simp only [List.cons_append, List.append_assoc, List.nil_append]
    · exact .inr (.double hraw)
    · exact .inr (.doubleEscape hraw)
  by_cases hslash : c = '\\'
  · subst hslash
    cases cs with
    | nil => exact .inr .escape
    | cons c rest => exact .inl ⟨.escaped c, ['\\', c], rest, rfl, List.cons_ne_nil _ _, rfl⟩
  by_cases hbar : c = '|'
  · exact .inl ⟨.bar, [c], cs, rfl, List.cons_ne_nil _ _, hbar ▸ rfl⟩
  cases hblank : Text.isBlank c with
  | true => exact .inl ⟨.blank c, [c], cs, rfl, List.cons_ne_nil _ _, rfl, hblank⟩
  | false =>
    exact .inl ⟨.plain c, [c], cs, rfl, List.cons_ne_nil _ _, rfl, hsingle, hdouble, hslash, hbar,
      hblank⟩

theorem BreaksOff.cons {p : Piece} {head rest : List Char} (hp : p.Spelled head)
    (h : BreaksOff rest) : BreaksOff (head ++ rest) := by
  obtain ⟨ps, front, last, rfl, hfront, hlast⟩ := h
  exact ⟨p :: ps, head ++ front, last, (List.append_assoc _ _ _).symm, hfront.cons hp, hlast⟩

theorem Spells.append {ps qs : List Piece} {front rest : List Char} (h : Spells ps front)
    (hrest : Spells qs rest) : Spells (ps ++ qs) (front ++ rest) := by
  induction h with
  | nil => exact hrest
  | cons hp _ ih =>
    rw [List.append_assoc]
    exact ih.cons hp

theorem BreaksOff.append {ps : List Piece} {front rest : List Char} (hfront : Spells ps front)
    (h : BreaksOff rest) : BreaksOff (front ++ rest) := by
  obtain ⟨qs, before, last, rfl, hbefore, hlast⟩ := h
  exact ⟨ps ++ qs, front ++ before, last, (List.append_assoc _ _ _).symm, hfront.append hbefore,
    hlast⟩

/-- Every text is a row of pieces or breaks off. -/
theorem spells_or_breaksOff (cs : List Char) : (∃ ps, Spells ps cs) ∨ BreaksOff cs := by
  induction hlength : cs.length using Nat.strongRecOn generalizing cs with
  | ind n ih =>
    by_cases hnil : cs = []
    · exact .inl ⟨[], hnil ▸ .nil⟩
    rcases spelled_or_open hnil with ⟨p, head, rest, rfl, hhead, hp⟩ | hopen
    · have hshorter : rest.length < n := by
        have hpositive := List.length_pos_iff.mpr hhead
        rw [List.length_append] at hlength
        omega
      rcases ih rest.length hshorter rest rfl with ⟨ps, hrest⟩ | hbreaks
      · exact .inl ⟨p :: ps, .cons hp hrest⟩
      · exact .inr (hbreaks.cons hp)
    · exact .inr ⟨[], [], cs, rfl, .nil, hopen⟩

end Piece

end Sluice
