import Sluice.Json.Basic
import Sluice.Text.Half
import Sluice.Text.Integer

/-!
Reading JSON text. Besides the standard grammar the three words for undefined and infinite numbers
are accepted. A fault is reported with the line it lies on; a whole number with too many digits is
refused on its own account, whatever follows it.
-/

namespace Sluice.Json

/-- What can be wrong with a JSON text. -/
inductive Fault where
  | expectingValue
  | extraData
  | expectingComma
  | expectingColon
  | expectingName
  | unterminatedString
  | controlCharacter
  | badEscape
  | badUnicodeEscape
  | byteOrderMark
  deriving DecidableEq

def Fault.message : Fault → String
  | .expectingValue => "Expecting value"
  | .extraData => "Extra data"
  | .expectingComma => "Expecting ',' delimiter"
  | .expectingColon => "Expecting ':' delimiter"
  | .expectingName => "Expecting property name enclosed in double quotes"
  | .unterminatedString => "Unterminated string starting at"
  | .controlCharacter => "Invalid control character at"
  | .badEscape => "Invalid \\escape"
  | .badUnicodeEscape => "Invalid \\uXXXX escape"
  | .byteOrderMark => "Unexpected UTF-8 BOM (decode using utf-8-sig)"

/-- Why a text was refused: a fault on a line, or a whole number of so many digits. -/
inductive ReadError where
  | malformed (fault : Fault) (line : Nat)
  | longNumber (digits : Nat)
  deriving DecidableEq

/-- Where reading stops: a fault and the text from the place where it lies, or a long number. -/
inductive Stop where
  | fault (fault : Fault) (rest : List Char)
  | longNumber (digits : Nat)

/-- A value read from the front of a text, and the text after it. -/
abbrev Read (α : Type) : Type := Except Stop (α × List Char)

/-- The four characters that may stand between values. -/
def isSpace (c : Char) : Bool :=
  c == ' ' || c == '\t' || c == '\n' || c == '\r'

/-- The text from its first character that is no space. -/
def skipSpace (cs : List Char) : List Char :=
  cs.dropWhile isSpace

def isDigit (c : Char) : Bool :=
  '0' ≤ c && c ≤ '9'

def digitsValue (cs : List Char) : Nat :=
  Text.ofDigits (cs.map fun c => c.toNat - 48)

/-- The character for one letter after a backslash. -/
def unescape? : Char → Option Char
  | '"' => some '"'
  | '\\' => some '\\'
  | '/' => some '/'
  | 'b' => some '\x08'
  | 'f' => some '\x0c'
  | 'n' => some '\n'
  | 'r' => some '\r'
  | 't' => some '\t'
  | _ => none

def isHighSurrogate (n : Nat) : Bool :=
  0xd800 ≤ n && n < 0xdc00

def isLowSurrogate (n : Nat) : Bool :=
  0xdc00 ≤ n && n < 0xe000

/-- Where reading stands inside a string. A number of hexadecimal digits follows `\u`; the code of
the first half of a character waits in `high` for its second half. -/
inductive Place where
  | plain
  | slash (high : Option Nat)
  | digits (owed value : Nat) (high : Option Nat)
  | coded (high : Option Nat)

/-- The characters and the place after a code is complete. A first half that is not followed by a
second half is kept as a half, and so is a second half alone. -/
def ofCode (code : Nat) (high : Option Nat) : List Char × Place :=
  let alone : List Char × Place :=
    if isHighSurrogate code then ([], .coded (some code)) else (Text.codeChars code, .coded none)
  match high with
  | none => alone
  | some h =>
    if isLowSurrogate code then
      (Text.codeChars (0x10000 + (h - 0xd800) * 1024 + (code - 0xdc00)), .coded none)
    else (Text.codeChars h ++ alone.1, alone.2)

/-- What a first half that waits comes to where no second half follows. -/
def waiting (high : Option Nat) : List Char :=
  (high.map Text.codeChars).getD []

/-- The characters of a string up to its closing quote, from a place inside it. `start` is the text
from the opening quote. -/
def readChars (start : List Char) : Place → List Char → Read (List Char)
  | .plain, [] | .slash _, [] => .error (.fault .unterminatedString start)
  | .digits _ _ _, [] | .coded _, [] => .error (.fault .badUnicodeEscape [])
  | .slash high, c :: rest =>
    if c = 'u' then readChars start (.digits 4 0 high) rest
    else
      match unescape? c with
      | some x => push (waiting high ++ [x]) (readChars start .plain rest)
      | none => .error (.fault .badEscape (c :: rest))
  | .digits owed value high, c :: rest =>
    match Text.hexValue? c with
    | none => .error (.fault .badUnicodeEscape (c :: rest))
    | some d =>
      if owed = 1 then
        let (cs, place) := ofCode (value * 16 + d) high
        push cs (readChars start place rest)
      else readChars start (.digits (owed - 1) (value * 16 + d) high) rest
  | .plain, c :: rest =>
    if c = '"' then .ok ([], rest)
    else if c = '\\' then readChars start (.slash none) rest
    else if c.toNat < 0x20 then .error (.fault .controlCharacter (c :: rest))
    else push [c] (readChars start .plain rest)
  | .coded high, c :: rest =>
    if c = '"' then .ok (waiting high, rest)
    else if c = '\\' then readChars start (.slash high) rest
    else if c.toNat < 0x20 then .error (.fault .controlCharacter (c :: rest))
    else push (waiting high ++ [c]) (readChars start .plain rest)
where
  /-- Characters in front of what is read next. -/
  push (cs : List Char) (r : Read (List Char)) : Read (List Char) :=
    r.map fun (more, rest) => (cs ++ more, rest)

/-- A string after its opening quote, which begins `start`. -/
def readString (start rest : List Char) : Except Stop (String × List Char) :=
  (readChars start .plain rest).map fun (cs, rest) => (String.ofList cs, rest)

/-- The fraction of a number: digits after a point, or nothing. -/
def readFraction : List Char → List Char × List Char
  | '.' :: d :: rest =>
    if isDigit d then (d :: rest.takeWhile isDigit, rest.dropWhile isDigit)
    else ([], '.' :: d :: rest)
  | cs => ([], cs)

/-- The digits of an exponent after its mark and sign, if there are any. -/
def readExponentDigits (cs : List Char) : Option (Nat × List Char) :=
  let digits := cs.takeWhile isDigit
  if digits.isEmpty then none else some (digitsValue digits, cs.dropWhile isDigit)

/-- The exponent of a number, or none where the text does not go on with one. -/
def readExponent : List Char → Option (Int × List Char)
  | e :: rest =>
    if e = 'e' ∨ e = 'E' then
      match rest with
      | '-' :: tail => (readExponentDigits tail).map fun (n, after) => (-(n : Int), after)
      | '+' :: tail => (readExponentDigits tail).map fun (n, after) => ((n : Int), after)
      | tail => (readExponentDigits tail).map fun (n, after) => ((n : Int), after)
    else none
  | [] => none

/-- The whole part of a number: a zero alone, or digits that do not start with one. -/
def readWhole : List Char → Option (List Char × List Char)
  | '0' :: rest => some (['0'], rest)
  | d :: rest =>
    if isDigit d then some (d :: rest.takeWhile isDigit, rest.dropWhile isDigit) else none
  | [] => none

/-- A number after its sign. With a fraction or an exponent it is a floating point number. -/
def readUnsigned (negative : Bool) (cs : List Char) : Read Json :=
  match readWhole cs with
  | none => .error (.fault .expectingValue (if negative then '-' :: cs else cs))
  | some (whole, rest) =>
    let (fraction, rest) := readFraction rest
    let float (e : Int) (rest : List Char) : Read Json :=
      .ok (.float (.ofDecimal negative (digitsValue (whole ++ fraction)) (e - fraction.length)),
        rest)
    match readExponent rest with
    | some (e, rest) => float e rest
    | none =>
      if !fraction.isEmpty then float 0 rest
      else if Text.maxDigits < whole.length then .error (.longNumber whole.length)
      else
        let n : Int := digitsValue whole
        .ok (.int (if negative then -n else n), rest)

def readNumber : List Char → Read Json
  | '-' :: rest => readUnsigned true rest
  | cs => readUnsigned false cs

def words : List (List Char × Json) :=
  [("null".toList, .null), ("true".toList, .bool true), ("false".toList, .bool false),
    ("NaN".toList, .float .nan), ("Infinity".toList, .float (.infinite false)),
    ("-Infinity".toList, .float (.infinite true))]

/-- The word at the front of a text. -/
def readWord? (cs : List Char) : Option (Json × List Char) :=
  words.findSome? fun (word, value) =>
    if word.isPrefixOf cs then some (value, cs.drop word.length) else none

mutual

/-- A value. The fuel is twice the length of the text and more, so it does not run out. -/
def readValue : Nat → List Char → Read Json
  | 0, cs => .error (.fault .expectingValue cs)
  | fuel + 1, cs =>
    match cs with
    | '"' :: rest => (readString cs rest).map fun (s, rest) => (.str s, rest)
    | '[' :: rest =>
      match skipSpace rest with
      | ']' :: rest => .ok (.arr [], rest)
      | rest => (readElements fuel rest).map fun (xs, rest) => (.arr xs, rest)
    | '\x7b' :: rest =>
      match skipSpace rest with
      | '\x7d' :: rest => .ok (.obj [], rest)
      | rest => (readMembers fuel rest).map fun (kvs, rest) => (.obj (distinct kvs), rest)
    | _ =>
      match readWord? cs with
      | some r => .ok r
      | none => readNumber cs

/-- The elements of an array up to its closing bracket. -/
def readElements : Nat → List Char → Except Stop (List Json × List Char)
  | 0, cs => .error (.fault .expectingValue cs)
  | fuel + 1, cs => do
    let (x, rest) ← readValue fuel cs
    match skipSpace rest with
    | ']' :: rest => pure ([x], rest)
    | ',' :: rest =>
      let (xs, rest) ← readElements fuel (skipSpace rest)
      pure (x :: xs, rest)
    | rest => .error (.fault .expectingComma rest)

/-- The members of an object, as written, up to its closing brace. -/
def readMembers : Nat → List Char → Except Stop (List (String × Json) × List Char)
  | 0, cs => .error (.fault .expectingName cs)
  | fuel + 1, cs =>
    match cs with
    | '"' :: rest => do
      let (key, rest) ← readString cs rest
      match skipSpace rest with
      | ':' :: rest =>
        let (x, rest) ← readValue fuel (skipSpace rest)
        match skipSpace rest with
        | '\x7d' :: rest => pure ([(key, x)], rest)
        | ',' :: rest =>
          let (kvs, rest) ← readMembers fuel (skipSpace rest)
          pure ((key, x) :: kvs, rest)
        | rest => .error (.fault .expectingComma rest)
      | rest => .error (.fault .expectingColon rest)
    | _ => .error (.fault .expectingName cs)

end

/-- A whole text: one value with spaces around it. -/
def readDocument (cs : List Char) : Except Stop Json :=
  match cs with
  | '\ufeff' :: _ => .error (.fault .byteOrderMark cs)
  | _ => do
    let (value, rest) ← readValue (2 * cs.length + 2) (skipSpace cs)
    match skipSpace rest with
    | [] => pure value
    | rest => .error (.fault .extraData rest)

/-- The line on which the end `rest` of a text begins. -/
def lineAt (cs rest : List Char) : Nat :=
  1 + (cs.take (cs.length - rest.length)).count '\n'

def read (cs : List Char) : Except ReadError Json :=
  match readDocument cs with
  | .ok value => .ok value
  | .error (.fault fault rest) => .error (.malformed fault (lineAt cs rest))
  | .error (.longNumber digits) => .error (.longNumber digits)

end Sluice.Json
