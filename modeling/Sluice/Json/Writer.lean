import Sluice.Json.Basic
import Sluice.Decimal.Notation
import Sluice.Text.Hex

/-!
Writing JSON text. A layout says what stands between elements, after keys and at the start of each
line, and how floating point numbers are written; strings are escaped the same way in all of them.
-/

namespace Sluice.Json

/-- The choices of a JSON format. With an indent every element has a line of its own. -/
structure Layout where
  comma : String
  colon : String
  indent : Option Nat
  float : Decimal.Notation

namespace Layout

/-- What starts the line of an element at a depth. -/
def newline (l : Layout) (depth : Nat) : List Char :=
  match l.indent with
  | some n => '\n' :: List.replicate (n * depth) ' '
  | none => []

/-- What stands between two elements at a depth. -/
def between (l : Layout) (depth : Nat) : List Char :=
  l.comma.toList ++ l.newline depth

end Layout

/-- One character of a string. -/
def escapeChar (c : Char) : List Char :=
  if c = '"' then ['\\', '"']
  else if c = '\\' then ['\\', '\\']
  else if c = '\n' then ['\\', 'n']
  else if c = '\r' then ['\\', 'r']
  else if c = '\t' then ['\\', 't']
  else if c = '\x08' then ['\\', 'b']
  else if c = '\x0c' then ['\\', 'f']
  else if c.toNat < 0x20 then '\\' :: 'u' :: Text.hex 4 c.toNat
  else [c]

def writeString (s : String) : List Char :=
  '"' :: s.toList.flatMap escapeChar ++ ['"']

def writeInt : Int → List Char
  | .ofNat n => Decimal.digitsOf n
  | .negSucc n => '-' :: Decimal.digitsOf (n + 1)

mutual

/-- The text of a value at a depth. -/
def writeAt (l : Layout) (depth : Nat) : Json → List Char
  | .null => "null".toList
  | .bool true => "true".toList
  | .bool false => "false".toList
  | .int n => writeInt n
  | .float x => l.float.write x
  | .str s => writeString s
  | .arr [] => ['[', ']']
  | .arr (x :: xs) =>
    '[' :: l.newline (depth + 1) ++ writeAt l (depth + 1) x ++ writeMore l (depth + 1) xs ++
      l.newline depth ++ [']']
  | .obj [] => ['\x7b', '\x7d']
  | .obj ((k, v) :: rest) =>
    '\x7b' :: l.newline (depth + 1) ++ writeString k ++ l.colon.toList ++ writeAt l (depth + 1) v ++
      writeMembers l (depth + 1) rest ++ l.newline depth ++ ['\x7d']

/-- The elements after the first. -/
def writeMore (l : Layout) (depth : Nat) : List Json → List Char
  | [] => []
  | x :: xs => l.between depth ++ writeAt l depth x ++ writeMore l depth xs

/-- The members after the first. -/
def writeMembers (l : Layout) (depth : Nat) : List (String × Json) → List Char
  | [] => []
  | (k, v) :: rest =>
    l.between depth ++ writeString k ++ l.colon.toList ++ writeAt l depth v ++
      writeMembers l depth rest

end

def write (l : Layout) (value : Json) : List Char :=
  writeAt l 0 value

/-- Floating point numbers in JSON between people and stages: undefined and infinite ones have
words of their own. -/
def namedNumbers : Decimal.Notation :=
  ⟨-4, 16, 2, true, "NaN", "Infinity", "-Infinity"⟩

/-- Floating point numbers in an envelope: plain one place further down, exponents not filled, and
null for undefined and infinite ones. -/
def envelopeNumbers : Decimal.Notation :=
  ⟨-5, 16, 1, true, "null", "null", "null"⟩

/-- One line with a blank after each comma and colon. -/
def spaced : Layout := ⟨", ", ": ", none, namedNumbers⟩

/-- One line without blanks. -/
def compact : Layout := ⟨",", ":", none, namedNumbers⟩

/-- A line for each element, for people. -/
def listing : Layout := ⟨",", ": ", some 2, namedNumbers⟩

/-- A line for each element, for the tool that reads the envelope. -/
def envelope : Layout := ⟨",", ": ", some 2, envelopeNumbers⟩

def text (l : Layout) (value : Json) : String :=
  String.ofList (write l value)

end Sluice.Json
