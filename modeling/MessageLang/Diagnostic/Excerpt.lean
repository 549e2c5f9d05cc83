import MessageLang.Text.Blank

namespace MessageLang

/-- A line of a source text with its line end, and the number of characters in front of it. -/
structure SourceLine where
  offset : Nat
  chars : List Char

namespace SourceLine

/-- Cuts a text after every newline. -/
def split : List Char → List (List Char)
  | [] => []
  | '\n' :: rest => ['\n'] :: split rest
  | c :: rest =>
    match split rest with
    | [] => [[c]]
    | line :: lines => (c :: line) :: lines

/-- Puts lines one behind the other. -/
def place (offset : Nat) : List (List Char) → List SourceLine
  | [] => []
  | chars :: rest => ⟨offset, chars⟩ :: place (offset + chars.length) rest

/-- The lines of a text. A text without characters has one empty line. -/
def ofText (text : String) : List SourceLine :=
  match split text.toList with
  | [] => [⟨0, []⟩]
  | lines => place 0 lines

def stop (l : SourceLine) : Nat := l.offset + l.chars.length

/-- The line at a position in characters, which may be just behind the last one. -/
def at? (lines : List SourceLine) (position : Nat) : Option Nat :=
  if lines.any (position ≤ ·.stop) then
    some ((lines.takeWhile (·.offset ≤ position)).length - 1)
  else none

/-- How many cells a character takes up in a column. A tab goes to the next column that four
divides. -/
def width (c : Char) (column : Nat) : Nat := if c = '\t' then 4 - column % 4 else 1

/-- The characters that are shown, with their columns. Blanks at the end are not. -/
def shown (l : SourceLine) : List (Char × Nat) :=
  ((l.chars.reverse.dropWhile isBlank).reverse).zipIdx

/-- A line as it is shown, with blanks as spaces. -/
def text (l : SourceLine) : String :=
  String.join <| l.shown.map fun (c, column) =>
    if isBlank c then "".pushn ' ' (width c column) else String.singleton c

/-- How wide the cell under a column is. Behind the end of a line all are one wide. -/
def cellWidth (l : SourceLine) (column : Nat) : Nat :=
  match l.shown[column]? with
  | some (c, _) => width c column
  | none => 1

end SourceLine

/-- Part of a source text, in characters, with what is to be said about it. -/
structure Excerpt where
  lines : List SourceLine
  start : Nat
  stop : Nat
  label : String

namespace Excerpt

/-- A cell of a row under a line: what it starts with and what fills it up. -/
private def cell (l : SourceLine) (column : Nat) (first filling : Char) : String :=
  String.singleton first ++ "".pushn filling (l.cellWidth column - 1)

private def row (l : SourceLine) (columns : Nat) (draw : Nat → Char × Char) : String :=
  String.join <| (List.range columns).map fun column =>
    let (first, filling) := draw column
    cell l column first filling

/-- The part underlined, with a mark in its middle. -/
private def underline (e : Excerpt) (l : SourceLine) (middle column : Nat) : Char × Char :=
  let isIn := e.start ≤ l.offset + column && l.offset + column < e.stop
  if column = middle then (if isIn then ('┬', '─') else ('│', ' '))
  else if isIn then ('─', '─') else (' ', ' ')

/-- A line drawn from the mark to the label. -/
private def lead (middle column : Nat) : Char × Char :=
  if column < middle then (' ', ' ')
  else if column = middle then ('╰', '─') else ('─', '─')

/-- A part within a line. If the line ends before the part does, there is nothing to show. -/
def single (e : Excerpt) (gutter number : String) (l : SourceLine) : List String :=
  if l.stop < e.stop then [gutter]
  else
    let columns := e.stop - l.offset + 2
    let middle := max ((e.start + e.stop) / 2) e.start - l.offset
    [number ++ l.text, gutter ++ row l columns (underline e l middle),
      gutter ++ row l columns (lead middle) ++ " " ++ e.label]

/-- A part over several lines, of which the first and the last are shown. -/
def several (e : Excerpt) (gutter gap numberFirst numberLast : String) (first last : SourceLine)
    (isAdjacent : Bool) : List String :=
  let columns := last.chars.length + 2
  [numberFirst ++ "╭─▶ " ++ first.text]
    ++ (if isAdjacent then [] else [gap])
    ++ [numberLast ++ "├─▶ " ++ last.text,
      gutter ++ "│   " ++ row last columns (fun _ => (' ', ' ')),
      gutter ++ "╰───" ++ row last columns (fun _ => ('─', '─')) ++ " " ++ e.label]

private def decimalDigits (n : Nat) : Nat := (Nat.toDigits 10 n).length

/-- A line number, set to the right. -/
private def numbered (digits index : Nat) : String :=
  let number := toString (index + 1)
  " " ++ "".pushn ' ' (digits - number.length) ++ number ++ " │ "

/-- The part of the text with its line numbers, framed, above some further remarks. There is
nothing to show if the part is not in the text. -/
def draw (e : Excerpt) (remarks : List String) : List String :=
  let first := SourceLine.at? e.lines e.start
  let last := if e.start < e.stop then SourceLine.at? e.lines (e.stop - 1) else first
  match first, last with
  | some a, some z =>
    match e.lines[a]?, e.lines[z]? with
    | some firstLine, some lastLine =>
      let digits := decimalDigits (z + 1)
      let margin := "".pushn ' ' (digits + 2)
      let gutter := margin ++ "│ "
      let head := margin ++ "╭─[ <unknown>:" ++ toString (a + 1) ++ ":"
        ++ toString (e.start - firstLine.offset + 1) ++ " ]"
      let body :=
        if a = z then e.single gutter (numbered digits a) firstLine
        else
          e.several gutter (margin ++ "┆ ┆   ") (numbered digits a)
            (numbered digits z) firstLine lastLine (z = a + 1)
      let gutter := if a = z then gutter else gutter ++ "    "
      let foot := remarks.flatMap fun remark => [gutter, gutter ++ remark]
      [head, margin ++ "│"] ++ body ++ foot ++ ["".pushn '─' (digits + 2) ++ "╯"]
    | _, _ => []
  | _, _ => []

end Excerpt

end MessageLang
