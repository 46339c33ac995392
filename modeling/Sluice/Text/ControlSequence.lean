/-!
Control sequences of terminals, which set colours and move the cursor: an escape character and an
opening bracket, then parameters, intermediate characters and one final character. Text that does
not go to a terminal is written without them.
-/

namespace Sluice.Text

/-- The characters of the parameters: digits and the signs that go with them. -/
def isParameter (c : Char) : Bool :=
  '0' ≤ c && c ≤ '?'

/-- The characters between the parameters and the final character. -/
def isIntermediate (c : Char) : Bool :=
  ' ' ≤ c && c ≤ '/'

/-- The characters that end a control sequence. -/
def isFinal (c : Char) : Bool :=
  '@' ≤ c && c ≤ '~'

/-- The length of the control sequence that a text begins with, or zero. A sequence without its
final character is none. -/
def sequenceLength : List Char → Nat
  | '\x1b' :: '[' :: rest =>
    let parameters := rest.takeWhile isParameter
    let rest := rest.dropWhile isParameter
    let intermediates := rest.takeWhile isIntermediate
    match rest.dropWhile isIntermediate with
    | c :: _ => if isFinal c then parameters.length + intermediates.length + 3 else 0
    | [] => 0
  | _ => 0

/-- A text without its control sequences, after some characters that belong to one. -/
def withoutSequencesAfter : Nat → List Char → List Char
  | _, [] => []
  | skip + 1, _ :: rest => withoutSequencesAfter skip rest
  | 0, c :: rest =>
    match sequenceLength (c :: rest) with
    | 0 => c :: withoutSequencesAfter 0 rest
    | more + 1 => withoutSequencesAfter more rest

/-- A text without its control sequences. -/
def withoutSequences (cs : List Char) : List Char :=
  withoutSequencesAfter 0 cs

end Sluice.Text

namespace Sluice

def plainText (s : String) : String :=
  String.ofList (Text.withoutSequences s.toList)

end Sluice
