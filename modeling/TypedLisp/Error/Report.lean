import TypedLisp.Error.Basic
import TypedLisp.Text.Blank
import TypedLisp.Text.Rows

/-!
# Reports

A report shows an error in its source.  Each place of the error has a label, of which the first
one holds the text of the error, and a hint has a label and a note of its own.  Spans are counted
in bytes, a report counts in characters.
-/

namespace TypedLisp

/-- A text at some characters of the source. -/
structure Label where
  /-- The first character. -/
  start : Nat
  /-- The character after the last one. -/
  stop : Nat
  /-- The text. -/
  text : String
deriving DecidableEq, Repr

/-- How an error is shown in a source. -/
structure Report where
  /-- The heading. -/
  title : String
  /-- The file, the row and the column of the error; none in an empty source. -/
  location : Option String
  /-- The rows on which labels start or end, in increasing order. -/
  rows : List Nat
  /-- Where the only label starts in the only row, and how many characters it has. -/
  underline : Option (Nat × Nat)
  /-- The texts of the labels, in order. -/
  labels : List String
  /-- What is said besides. -/
  notes : List String
deriving DecidableEq, Repr

namespace Report

/-- The number of characters of a source that start before a byte. -/
def charOffset (source : List Char) (byte : Nat) : Nat :=
  (Text.before byte source).length

/-- A label at a span.  An empty span is widened to one character, unless it is at the end of
the source. -/
def labelAt (source : List Char) (span : Span) (text : String) : Label :=
  let start := charOffset source span.start
  let stop := charOffset source span.stop
  let stop := if stop ≤ start then min (start + 1) source.length else stop
  ⟨start, max start stop, text⟩

/-- The labels of an error. -/
def labelsOf (source : List Char) (e : Error) : List Label :=
  let places := match e.spans with
    | [] => [labelAt source (.point 0) e.detail]
    | first :: others =>
      labelAt source first e.detail ::
        others.map fun s => labelAt source s "conflicts with this"
  places ++ (e.hint?.toList.map fun h => labelAt source (.point h.offset) "maybe here?")

/-- The last character of a label; the first one if it has none. -/
def lastChar (l : Label) : Nat :=
  max l.start (l.stop - 1)

/-- The row of the first character of a label. -/
def firstRow (starts : List Nat) (l : Label) : Nat :=
  Text.rowOf starts l.start

/-- The row of the last character of a label. -/
def lastRow (starts : List Nat) (l : Label) : Nat :=
  Text.rowOf starts (lastChar l)

/-- The rows on which labels start or end, in increasing order. -/
def rowsOf (starts : List Nat) (labels : List Label) : List Nat :=
  ((labels.flatMap fun l => [firstRow starts l, lastRow starts l]).mergeSort).eraseDups

/-- The underlining of a single label in a single row. -/
def underlineOf (starts : List Nat) (labels : List Label) : Option (Nat × Nat) :=
  match labels, rowsOf starts labels with
  | [l], [_] => some (Text.columnOf starts l.start, max 1 (l.stop - l.start))
  | _, _ => none

/-! ### Labels over several rows

A label over several rows has a line in the margin, from the row where it starts to the row where
it ends; there the line turns to the text of the label.  A row has one such line of its own.  Any
other label that ends on the row is joined to it under its last character, and the joint stands in
front of its text. -/

/-- Whether a label goes over several rows. -/
def isSpread (starts : List Nat) (l : Label) : Bool :=
  firstRow starts l != lastRow starts l

/-- The column in which a label over several rows starts or ends on a row. -/
def columnOn (starts : List Nat) (row : Nat) (l : Label) : Option Nat :=
  if !isSpread starts l then none
  else if firstRow starts l = row then some (Text.columnOf starts l.start)
  else if lastRow starts l = row then some (Text.columnOf starts (lastChar l))
  else none

/-- Whether the line in the margin of a row belongs to the label `m` rather than to `l`, of which
`m` comes first in the report if `earlier` holds: the leftmost column wins, then the later start,
then the earlier label. -/
def takesMargin (starts : List Nat) (row : Nat) (l m : Label) (earlier : Bool) : Bool :=
  match columnOn starts row l, columnOn starts row m with
  | some a, some b =>
    b < a || (a == b && (l.start < m.start || (l.start == m.start && earlier)))
  | _, _ => false

/-- How many columns a character takes: a tabulator goes on to the next multiple of four. -/
def columns (c : Char) (column : Nat) : Nat :=
  if c = '\t' then 4 - column % 4 else 1

/-- The columns that the characters of a row from number `column` on take. -/
def columnsFrom (column : Nat) : List Char → Nat
  | [] => 0
  | c :: cs => columns c column + columnsFrom (column + 1) cs

/-- The text of a row without the blanks at its end, and the length of the row with them. -/
def rowText (source : List Char) (starts : List Nat) (row : Nat) : List Char × Nat :=
  let start := starts.getD (row - 1) 0
  let cs := (source.take (starts.getD row source.length)).drop start
  ((Text.trimStart cs.reverse).reverse, cs.length)

/-- The joint of a label that ends in a column of a row, and the line to the right of it, which
goes two columns past the end of the row. -/
def joint (source : List Char) (starts : List Nat) (row column : Nat) : List Char :=
  let (text, length) := rowText source starts row
  let beyond := length + 2 - max column text.length
  '┴' :: List.replicate (columnsFrom column (text.drop column) + beyond - 1) '─' ++ [' ']

/-- The text of the label `l` as it is shown between the labels before and after it. -/
def shownText (source : List Char) (starts : List Nat) (before : List Label) (l : Label)
    (after : List Label) : String :=
  let row := lastRow starts l
  let joined := before.any (fun m => takesMargin starts row l m true) ||
    after.any (fun m => takesMargin starts row l m false)
  let mark := if joined then joint source starts row (Text.columnOf starts (lastChar l)) else []
  String.ofList (Text.trim (mark ++ l.text.toList))

/-- The texts of labels as they are shown, when those `before` come first. -/
def shownTexts (source : List Char) (starts : List Nat) (before : List Label) :
    List Label → List String
  | [] => []
  | l :: ls => shownText source starts before l ls :: shownTexts source starts (before ++ [l]) ls

/-- The file, the row and the column of the first place of an error. -/
def locationOf (source : List Char) (starts : List Nat) (filename : String) (e : Error) : String :=
  let place := (e.spans.head?.map fun s => charOffset source s.start).getD 0
  filename ++ ":" ++ toString (Text.rowOf starts place) ++ ":" ++
    toString (Text.columnOf starts place + 1)

/-- The report of an error in a source. -/
def ofError (source filename : String) (e : Error) : Report :=
  let title := "Error: " ++ e.title
  let cs := source.toList
  if cs.isEmpty then ⟨title, none, [], none, [], []⟩
  else
    let starts := Text.rowStarts cs
    let labels := labelsOf cs e
    { title
      location := some (locationOf cs starts filename e)
      rows := rowsOf starts labels
      underline := underlineOf starts labels
      labels := (shownTexts cs starts [] labels).mergeSort
      notes := e.hint?.toList.map Hint.message }

end Report
end TypedLisp
