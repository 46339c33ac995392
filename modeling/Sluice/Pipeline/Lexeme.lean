import Sluice.Text.Blank

/-!
The words and bars of a pipeline text. The text is taken one character at a time by a scanner that
knows whether it stands between words, inside quotes or after a backslash. Every character is
accepted; only at the end of the text can something be missing.
-/

namespace Sluice

/-- What is wrong with the text of a pipeline. -/
inductive SyntaxError where
  | unterminatedQuote (quote : Char) (position : Nat)
  | danglingEscape
  | leadingBar
  | trailingBar
  | emptyStage (index : Nat)
  | flagAsName (index : Nat) (text : String)
  | emptyName (index : Nat)
  | invalidFlag (text : String)
  deriving DecidableEq

/-- A word. It is quoted if it begins with a quote or a backslash. -/
structure Word where
  text : String
  quoted : Bool
  deriving DecidableEq

inductive Lexeme where
  | word (w : Word)
  | bar
  deriving DecidableEq

namespace Lexeme

/-- A word that is not finished, its characters with the latest first. -/
structure OpenWord where
  latest : List Char
  quoted : Bool

/-- Where the scanner stands. Quotes remember the position they were opened at. -/
inductive Mode where
  | plain
  | escape
  | single (start : Nat)
  | double (start : Nat)
  | doubleEscape (start : Nat)

/-- The scanner between two characters. -/
structure Scanner where
  mode : Mode
  word : Option OpenWord
  position : Nat

namespace Scanner

/-- The scanner before a text. -/
def start : Scanner := ⟨.plain, none, 0⟩

/-- The open word, or a new one that begins quoted or not. -/
def openWord (s : Scanner) (quoted : Bool) : OpenWord :=
  s.word.getD ⟨[], quoted⟩

/-- The open word as a finished one. -/
def flush (s : Scanner) : List Lexeme :=
  match s.word with
  | some w => [.word ⟨String.ofList w.latest.reverse, w.quoted⟩]
  | none => []

/-- The scanner after a character that belongs to a word. -/
def push (s : Scanner) (quoted : Bool) (c : Char) : Option OpenWord :=
  let w := s.openWord quoted
  some ⟨c :: w.latest, w.quoted⟩

/-- One character: the pieces it finishes, and the scanner after it. -/
def step (s : Scanner) (c : Char) : List Lexeme × Scanner :=
  let next := s.position + 1
  match s.mode with
  | .plain =>
    if c = '\'' then ([], ⟨.single s.position, some (s.openWord true), next⟩)
    else if c = '"' then ([], ⟨.double s.position, some (s.openWord true), next⟩)
    else if c = '\\' then ([], ⟨.escape, s.word, next⟩)
    else if c = '|' then (s.flush ++ [.bar], ⟨.plain, none, next⟩)
    else if Text.isBlank c then (s.flush, ⟨.plain, none, next⟩)
    else ([], ⟨.plain, s.push false c, next⟩)
  | .escape => ([], ⟨.plain, s.push true c, next⟩)
  | .single start =>
    if c = '\'' then ([], ⟨.plain, s.word, next⟩)
    else ([], ⟨.single start, s.push true c, next⟩)
  | .double start =>
    if c = '"' then ([], ⟨.plain, s.word, next⟩)
    else if c = '\\' then ([], ⟨.doubleEscape start, s.word, next⟩)
    else ([], ⟨.double start, s.push true c, next⟩)
  | .doubleEscape start =>
    if c = '"' ∨ c = '\\' then ([], ⟨.double start, s.push true c, next⟩)
    else
      let slash : Scanner := { s with word := s.push true '\\' }
      ([], ⟨.double start, slash.push true c, next⟩)

/-- The end of the text: the last word, unless a quote is open or a backslash has nothing after
it. -/
def finish (s : Scanner) : Except SyntaxError (List Lexeme) :=
  match s.mode with
  | .plain => .ok s.flush
  | .escape => .error .danglingEscape
  | .single start => .error (.unterminatedQuote '\'' start)
  | .double start | .doubleEscape start => .error (.unterminatedQuote '"' start)

end Scanner

/-- The pieces of a text from a scanner on. -/
def scan (s : Scanner) : List Char → Except SyntaxError (List Lexeme)
  | [] => s.finish
  | c :: rest =>
    let (out, next) := s.step c
    (scan next rest).map (out ++ ·)

def ofText (cs : List Char) : Except SyntaxError (List Lexeme) :=
  scan .start cs

/-- The words between the bars: one more segment than there are bars. -/
def segments : List Lexeme → List (List Word)
  | [] => [[]]
  | .bar :: rest => [] :: segments rest
  | .word w :: rest =>
    match segments rest with
    | [] => [[w]]
    | ws :: more => (w :: ws) :: more

end Lexeme

end Sluice
