import Sluice.Text.Hex
import Sluice.Text.Utf8

/-!
Percent encoding: a character that may not stand for itself is written as its UTF-8 bytes, each
after a percent sign. Sequences that are encoded already stay as they are.
-/

namespace Sluice.Percent

/-- One character, written as its bytes unless it is allowed. -/
def encodeChar (allowed : Char → Bool) (c : Char) : List Char :=
  if allowed c then [c]
  else (Utf8.encodeChar c).flatMap fun b => '%' :: (Text.hex 2 b.toNat).map Char.toUpper

/-- A text in which only allowed characters stand for themselves. -/
def encode (allowed : Char → Bool) : List Char → List Char
  | [] => []
  | '%' :: a :: b :: rest =>
    if (Text.hexValue? a).isSome && (Text.hexValue? b).isSome then
      '%' :: a :: b :: encode allowed rest
    else encodeChar allowed '%' ++ encode allowed (a :: b :: rest)
  | c :: rest => encodeChar allowed c ++ encode allowed rest

/-- The bytes that an encoded text stands for. -/
def decode : List Char → List UInt8
  | [] => []
  | '%' :: a :: b :: rest =>
    match Text.hexValue? a, Text.hexValue? b with
    | some x, some y => UInt8.ofNat (x * 16 + y) :: decode rest
    | _, _ => Utf8.encodeChar '%' ++ decode (a :: b :: rest)
  | c :: rest => Utf8.encodeChar c ++ decode rest

end Sluice.Percent
