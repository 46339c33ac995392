/-!
UTF-8. Characters become one to four bytes; bytes are read by a machine that takes one byte at a
time and marks each longest run of bytes that cannot begin or continue a character. Strict reading
refuses a text with such a mark and lossy reading puts the replacement character in its place.
-/

namespace Sluice.Utf8

def encodeChar (c : Char) : List UInt8 :=
  let n := c.toNat
  if n < 0x80 then [UInt8.ofNat n]
  else if n < 0x800 then [UInt8.ofNat (0xc0 + n / 64), UInt8.ofNat (0x80 + n % 64)]
  else if n < 0x10000 then
    [UInt8.ofNat (0xe0 + n / 4096), UInt8.ofNat (0x80 + n / 64 % 64), UInt8.ofNat (0x80 + n % 64)]
  else
    [UInt8.ofNat (0xf0 + n / 262144), UInt8.ofNat (0x80 + n / 4096 % 64),
      UInt8.ofNat (0x80 + n / 64 % 64), UInt8.ofNat (0x80 + n % 64)]

def encode (cs : List Char) : List UInt8 :=
  cs.flatMap encodeChar

/-- A character that has begun: how many bytes it still needs, between which bounds the next one
lies, and the value of the bits seen so far. -/
structure Begun where
  owed : Nat
  low : Nat
  high : Nat
  value : Nat

/-- What a byte does where a character may begin: it is a character, begins one, or neither. -/
def firstByte (b : UInt8) : List (Option Char) × Option Begun :=
  let n := b.toNat
  if n < 0x80 then ([some (Char.ofNat n)], none)
  else if n < 0xc2 then ([none], none)
  else if n < 0xe0 then ([], some ⟨1, 0x80, 0xbf, n - 0xc0⟩)
  else if n < 0xf0 then
    ([], some ⟨2, if n = 0xe0 then 0xa0 else 0x80, if n = 0xed then 0x9f else 0xbf, n - 0xe0⟩)
  else if n < 0xf5 then
    ([], some ⟨3, if n = 0xf0 then 0x90 else 0x80, if n = 0xf4 then 0x8f else 0xbf, n - 0xf0⟩)
  else ([none], none)

/-- One byte: the characters and marks it completes, and the character it leaves begun. A byte
that cannot continue a begun character leaves a mark for it and is taken as a first byte. -/
def step : Option Begun → UInt8 → List (Option Char) × Option Begun
  | none, b => firstByte b
  | some p, b =>
    if p.low ≤ b.toNat ∧ b.toNat ≤ p.high then
      let value := p.value * 64 + (b.toNat - 0x80)
      if p.owed = 1 then ([some (Char.ofNat value)], none)
      else ([], some ⟨p.owed - 1, 0x80, 0xbf, value⟩)
    else
      let (out, next) := firstByte b
      (none :: out, next)

/-- The characters of a byte sequence, `none` standing for a run of bytes that is no character. -/
def scan : Option Begun → List UInt8 → List (Option Char)
  | none, [] => []
  | some _, [] => [none]
  | p, b :: rest =>
    let (out, next) := step p b
    out ++ scan next rest

/-- The text of a byte sequence, if all of it is text. -/
def decode? (bytes : List UInt8) : Option (List Char) :=
  (scan none bytes).mapM id

/-- The text of a byte sequence with the replacement character for what is not text. -/
def decodeLossy (bytes : List UInt8) : List Char :=
  (scan none bytes).map fun c => c.getD '\ufffd'

end Sluice.Utf8
