/-!
Base64 with the alphabet that is safe in URLs. Writing leaves the padding out. Reading first pads
the text by its length and then accepts both alphabets, passes over characters of neither, and
stops where padding completes a group.
-/

namespace Sluice.Base64

/-- The character for six bits. -/
def digit (n : Nat) : Char :=
  if n < 26 then Char.ofNat (65 + n)
  else if n < 52 then Char.ofNat (71 + n)
  else if n < 62 then Char.ofNat (n - 4)
  else if n = 62 then '-'
  else '_'

/-- The six bits of a character of either alphabet. -/
def digitValue? (c : Char) : Option Nat :=
  if 'A' ≤ c ∧ c ≤ 'Z' then some (c.toNat - 65)
  else if 'a' ≤ c ∧ c ≤ 'z' then some (c.toNat - 71)
  else if '0' ≤ c ∧ c ≤ '9' then some (c.toNat + 4)
  else if c = '-' ∨ c = '+' then some 62
  else if c = '_' ∨ c = '/' then some 63
  else none

/-- The text of a byte sequence: four characters for three bytes, two for a last single byte and
three for a last pair. -/
def encode : List UInt8 → List Char
  | [] => []
  | [a] => [digit (a.toNat / 4), digit (a.toNat % 4 * 16)]
  | [a, b] =>
    [digit (a.toNat / 4), digit (a.toNat % 4 * 16 + b.toNat / 16), digit (b.toNat % 16 * 4)]
  | a :: b :: c :: rest =>
    digit (a.toNat / 4) :: digit (a.toNat % 4 * 16 + b.toNat / 16) ::
      digit (b.toNat % 16 * 4 + c.toNat / 64) :: digit (c.toNat % 64) :: encode rest

/-- How much of a group of four characters has been read: the bits not yet written out, and after
two characters whether one padding character has been seen. -/
inductive Group where
  | empty
  | one (bits : Nat)
  | two (bits : Nat) (padded : Bool)
  | three (bits : Nat)

/-- Reads on from inside a group. A text that ends inside a group is refused. -/
def read : Group → List Char → Option (List UInt8)
  | .empty, [] => some []
  | _, [] => none
  | g, c :: rest =>
    if c = '=' then
      match g with
      | .empty | .one _ => read g rest
      | .two bits false => read (.two bits true) rest
      | .two _ true | .three _ => some []
    else
      match digitValue? c with
      | none => read g rest
      | some v =>
        match g with
        | .empty => read (.one v) rest
        | .one bits => (read (.two (v % 16) false) rest).map (UInt8.ofNat (bits * 4 + v / 16) :: ·)
        | .two bits _ => (read (.three (v % 4)) rest).map (UInt8.ofNat (bits * 16 + v / 4) :: ·)
        | .three bits => (read .empty rest).map (UInt8.ofNat (bits * 64 + v) :: ·)

/-- The text padded to a whole number of groups. -/
def pad (cs : List Char) : List Char :=
  cs ++ List.replicate ((4 - cs.length % 4) % 4) '='

/-- The text of a byte sequence in the older alphabet, with its padding. -/
def encodePadded (bytes : List UInt8) : List Char :=
  pad ((encode bytes).map fun c => if c = '-' then '+' else if c = '_' then '/' else c)

/-- The bytes of a text, whatever padding it came with. -/
def decode? (cs : List Char) : Option (List UInt8) :=
  read .empty (pad cs)

end Sluice.Base64
