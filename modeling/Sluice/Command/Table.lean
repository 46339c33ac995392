import Sluice.Command.Basic
import Sluice.Json.Writer
import Sluice.Serialisation
import Sluice.Text.ControlSequence

/-!
Tables of items: a column for each key in the order keys are first seen, one more for what is no
object, a header, a rule, and a line for each item. All lines have the same width in characters.
-/

namespace Sluice.Table

/-- The column of items that are no objects. -/
def valueColumn : String := "value"

/-- The keys of the cells that a value fills. -/
def keys : Json → List String
  | .obj ms => ms.map Prod.fst
  | _ => [valueColumn]

/-- The columns of some values: each key once, in the order of first sight. -/
def columns (values : List Json) : List String :=
  (values.flatMap keys).foldl (fun seen key => if seen.contains key then seen else seen ++ [key]) []

/-- A text cut to a width, with a mark where something is cut off. Widths below two cut nothing. -/
def fit (width : Int) (cs : List Char) : List Char :=
  if 1 < width ∧ width < cs.length then cs.take (width - 1).toNat ++ ['…'] else cs

/-- The text of a value in its cell: a string as itself, any other value as JSON, on one line. -/
def cellText (width : Int) (value : Json) : List Char :=
  let text :=
    match value with
    | .str s => s.toList
    | j => Json.write Json.spaced j
  fit width (text.map fun c => if c = '\n' then ' ' else c)

/-- The cell of a value in a column, empty where the value does not fill it. -/
def cell (width : Int) (value : Json) (column : String) : List Char :=
  match value with
  | .obj ms =>
    match ms.lookup column with
    | some v => cellText width v
    | none => []
  | j => if column = valueColumn then cellText width j else []

/-- A text filled with blanks up to a width. -/
def pad (width : Nat) (cs : List Char) : List Char :=
  cs ++ List.replicate (width - cs.length) ' '

/-- The width of each column: that of its longest text, the header's included. -/
def widths (header : List (List Char)) (rows : List (List (List Char))) : List Nat :=
  rows.foldl (fun ws row => (ws.zip row).map fun (w, c) => max w c.length) (header.map List.length)

/-- One line of cells, each filled to its width. -/
def line (widths : List Nat) (cells : List (List Char)) : List Char :=
  [' ', '|', ' '].intercalate ((widths.zip cells).map fun (w, c) => pad w c)

def rule (widths : List Nat) : List Char :=
  ['-', '+', '-'].intercalate (widths.map fun w => List.replicate w '-')

def lines (width : Int) (values : List Json) : List (List Char) :=
  let names := columns values
  let header := names.map String.toList
  let rows := values.map fun v => names.map (cell width v)
  let ws := widths header rows
  line ws header :: rule ws :: rows.map (line ws)

def ofValues (width : Int) (values : List Json) : String :=
  if values.isEmpty then "(no items)\n"
  else String.ofList ((lines width values).flatMap (· ++ ['\n']))

/-- The values of items, unless one of them is a request, which a cell cannot show. -/
def valuesOf : List Item → Except Failure (List Json)
  | [] => .ok []
  | .value j :: rest => (valuesOf rest).map (j :: ·)
  | .request _ _ :: _ => .error .requestNotJson

/-- The table of some items. -/
def format (width : Int) (items : List Item) : Except Failure String :=
  (valuesOf items).map (ofValues width)

/-- The table as it is printed: without control sequences, and only if it can be encoded. -/
def page (width : Int) (items : List Item) : Except Failure String := do
  let text ← format width items
  encodableText (plainText text)

/-- The widest a cell is where no width is given. -/
def defaultWidth : Int := 60

/-- The output of the stage for people: the table is printed once all items are there. -/
def stream (stage : Nat) (width : Int) (source : Stream) : Stream :=
  .ofProgram do
    let items ← source.collect
    let text ← Program.ofExcept (page width items)
    let _ ← Program.effect stage (.print text)
    pure items

end Sluice.Table

namespace Sluice

def Command.table : Command where
  name := "table"
  help := textOfLines [
    "table -- render items as a table",
    "",
    "Usage:",
    "  ... | table",
    "  ... | table --width 40",
    "",
    "Human mode prints the table and marks the output as rendered.",
    "Tool mode passes items through untouched."]
  run stage ctx args source :=
    match ctx.mode with
    | .tool => .ok (.plain source)
    | .human => do
      let width ← args.integer "width" Table.defaultWidth
      pure ⟨Table.stream stage width source, true, false⟩

end Sluice
