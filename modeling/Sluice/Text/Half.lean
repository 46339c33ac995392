import Sluice.Text.Hex

/-!
Halves of characters. A code that is the first or the second half of a pair is no character when it
stands alone, yet texts can hold such codes: they come from escapes and from words that are no UTF-8.
A half is held as three characters that no text is made of, a mark and two that give its bits, so it
goes through a pipeline like any other part of a text and stands in the way only where the text has
to be encoded. (The three in a row, in a text of their own, would be taken for a half.)
-/

namespace Sluice.Text

/-- The mark of a half: one of two noncharacters, for first and for second halves. -/
def isMark (c : Char) : Bool :=
  c.toNat == 0xdfffe || c.toNat == 0xdffff

/-- The noncharacters that stand for five bits each. -/
def isBits (c : Char) : Bool :=
  0xfdd0 ≤ c.toNat && c.toNat ≤ 0xfdef

/-- The three characters for the code of a half. -/
def halfChars (code : Nat) : List Char :=
  let n := code - 0xd800
  [Char.ofNat (0xdfffe + n / 1024 % 2), Char.ofNat (0xfdd0 + n / 32 % 32),
    Char.ofNat (0xfdd0 + n % 32)]

/-- The code of the half that three characters stand for. -/
def halfCode (mark high low : Char) : Nat :=
  0xd800 + (mark.toNat - 0xdfffe) * 1024 + (high.toNat - 0xfdd0) * 32 + (low.toNat - 0xfdd0)

def isHalf (mark high low : Char) : Bool :=
  isMark mark && isBits high && isBits low

/-- The characters for a code: its character, or what a half is held as. -/
def codeChars (n : Nat) : List Char :=
  if n.isValidChar then [Char.ofNat n] else halfChars n

/-- A text with each half and each other character replaced. -/
def spell (half : Nat → List Char) (char : Char → List Char) : List Char → List Char
  | m :: a :: b :: rest =>
    if isHalf m a b then half (halfCode m a b) ++ spell half char rest
    else char m ++ spell half char (a :: b :: rest)
  | c :: rest => char c ++ spell half char rest
  | [] => []

/-- A half as an escape of four digits. -/
def escapedHalf (code : Nat) : List Char :=
  '\\' :: 'u' :: hex 4 code

/-- A text with its halves as escapes, which is how it is written where it must not fail. -/
def escapeHalves (cs : List Char) : List Char :=
  spell escapedHalf (fun c => [c]) cs

/-- The first halves in a text that stand side by side: the code of the first of them, and where they
start and stop. A half counts as one character. -/
structure Half where
  code : Nat
  start : Nat
  stop : Nat
  deriving DecidableEq

/-- How many halves stand side by side at the front of a text. -/
def halfRun : List Char → Nat
  | m :: a :: b :: rest => if isHalf m a b then halfRun rest + 1 else 0
  | _ => 0

/-- The first halves in a text that goes on at a position. -/
def halfFrom : Nat → List Char → Option Half
  | start, m :: a :: b :: rest =>
    if isHalf m a b then some ⟨halfCode m a b, start, start + halfRun rest⟩
    else halfFrom (start + 1) (a :: b :: rest)
  | _, _ => none

/-- The first halves in a text. Only a text without any can be encoded. -/
def half? (cs : List Char) : Option Half :=
  halfFrom 0 cs

end Sluice.Text
