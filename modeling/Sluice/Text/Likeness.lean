/-!
How alike two texts are. The longest stretch that both share is matched, then what stands before it
in both and what stands after it in both, until nothing is shared. Texts are alike if at least three
fifths of their characters are matched.
-/

namespace Sluice.Text

/-- The length of the stretch that two texts begin with. -/
def commonStart : List Char → List Char → Nat
  | a :: as, b :: bs => if a = b then commonStart as bs + 1 else 0
  | _, _ => 0

/-- A stretch that two texts share: where it begins in each, and its length. -/
structure Stretch where
  inFirst : Nat
  inSecond : Nat
  length : Nat
  deriving DecidableEq

/-- The longer of two stretches, the first one if they have the same length. -/
def Stretch.longer (s t : Stretch) : Stretch :=
  if s.length < t.length then t else s

/-- The longest stretch at the beginning of `as`, which is place `i` of the first text, and
anywhere in the second text from place `j` on. -/
def stretchAt (as : List Char) (i j : Nat) : List Char → Stretch
  | [] => ⟨i, j, 0⟩
  | b :: bs => Stretch.longer ⟨i, j, commonStart as (b :: bs)⟩ (stretchAt as i (j + 1) bs)

/-- The longest stretch that the first text from place `i` on shares with the second one. Of equally
long ones the first in the first text is taken, then the first in the second one. -/
def longestStretch (bs : List Char) (i : Nat) : List Char → Stretch
  | [] => ⟨i, 0, 0⟩
  | a :: as => (stretchAt (a :: as) i 0 bs).longer (longestStretch bs (i + 1) as)

/-- The number of matched characters. The fuel bounds how often a text is divided. -/
def matchedWithin : Nat → List Char → List Char → Nat
  | 0, _, _ => 0
  | fuel + 1, as, bs =>
    let s := longestStretch bs 0 as
    if s.length = 0 then 0
    else
      matchedWithin fuel (as.take s.inFirst) (bs.take s.inSecond) + s.length +
        matchedWithin fuel (as.drop (s.inFirst + s.length)) (bs.drop (s.inSecond + s.length))

/-- The number of matched characters of each of two texts. Every division leaves less of the first
one. -/
def matched (as bs : List Char) : Nat :=
  matchedWithin as.length as bs

def alike (as bs : List Char) : Bool :=
  3 * (as.length + bs.length) ≤ 10 * matched as bs

end Sluice.Text
