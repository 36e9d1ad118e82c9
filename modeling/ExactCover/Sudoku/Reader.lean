/-
ExactCover.Sudoku.Reader — the text form of a puzzle.

The lines of a text are trimmed and the empty ones at its head dropped. A first
line of 81 characters is the whole board; any other first line is row 0 and is
followed by eight more rows. What comes after the board is a list of candidates
to eliminate, separated by blanks. In the board a digit from 1 to 9 is given and
a point is an empty cell.

The board is checked row by row: the length of a row before its cells, a cell's
character before the houses of its digit, and of the houses the row first, then
the column, then the box.
-/
import ExactCover.Matrix.Build
import ExactCover.Sudoku.Placement
import ExactCover.Text.Line

namespace ExactCover.Sudoku

/-- Why a text is not a puzzle. -/
inductive ParseError where
  /-- A character in the board that is neither a digit from 1 to 9 nor a point. -/
  | invalidEntry (row col : Nat) (entry : Char)
  /-- A row that does not have nine cells. -/
  | invalidLineLength (row len : Nat)
  /-- The text ends before the ninth row. -/
  | notEnoughRows (rows : Nat)
  /-- A digit that is given twice in a house. -/
  | duplicateDigit (kind : Kind) (index digit : Nat)
  /-- A word after the board that names no candidate. -/
  | unknownCandidate (name : String)
  /-- The matrix could not be built. -/
  | build (e : BuildError)
  deriving DecidableEq, Repr

open Text in
/-- The sentence that reports an error. -/
def ParseError.message : ParseError → String
  | .invalidEntry row col entry =>
    s!"invalid entry {quotedChar entry} in row {row}, column {col}"
  | .invalidLineLength row len => s!"row {row} has {len} cells instead of 9"
  | .notEnoughRows rows => s!"input ends after {rows} rows"
  | .duplicateDigit kind index digit => s!"digit {digit} given twice in {kind.label} {index}"
  | .unknownCandidate name => s!"cannot eliminate unknown candidate {quoted name}"
  | .build e => e.message

/-- What a text says about a puzzle. -/
structure Description where
  /-- The given digits, row by row. -/
  givens : List Placement
  /-- The names of the candidates to eliminate. -/
  eliminations : List String
  deriving DecidableEq, Repr

namespace Reader

/-- A list in parts of nine; the last may be shorter. -/
def chunks : Nat → List Char → List (List Char)
  | 0, _ => []
  | n + 1, cs => cs.take 9 :: chunks n (cs.drop 9)

/-- The rows of the board and the lines after it. -/
def splitBoard : List (List Char) → Except ParseError (List (List Char) × List (List Char))
  | [] => .error (.notEnoughRows 0)
  | first :: rest =>
    if first.length = 81 then .ok (chunks 9 first, rest)
    else if rest.length < 8 then .error (.notEnoughRows (rest.length + 1))
    else .ok (first :: rest.take 8, rest.drop 8)

/-- The house in which a placement meets another one with the same digit. -/
def sharedHouse? (earlier : List Placement) (p : Placement) : Option (Kind × Nat) :=
  let same := earlier.filter fun q => q.digit == p.digit
  if same.any fun q => q.row == p.row then some (.row, p.row)
  else if same.any fun q => q.col == p.col then some (.column, p.col)
  else if same.any fun q => q.box == p.box then some (.box, p.box)
  else none

/-- Reads one cell, with the placements before it in reverse order. -/
def readCell (row col : Nat) (entry : Char) (givens : List Placement) :
    Except ParseError (List Placement) :=
  if entry = '.' then .ok givens
  else if '1' ≤ entry ∧ entry ≤ '9' then
    let p := Placement.mk row col (entry.toNat - '0'.toNat)
    match sharedHouse? givens p with
    | some (kind, index) => .error (.duplicateDigit kind index p.digit)
    | none => .ok (p :: givens)
  else .error (.invalidEntry row col entry)

/-- Reads the cells of a row from a column on. -/
def readCells (row : Nat) :
    Nat → List Char → List Placement → Except ParseError (List Placement)
  | _, [], givens => .ok givens
  | col, entry :: rest, givens =>
    match readCell row col entry givens with
    | .error e => .error e
    | .ok givens => readCells row (col + 1) rest givens

/-- Reads the rows from a row on. -/
def readRows : Nat → List (List Char) → List Placement → Except ParseError (List Placement)
  | _, [], givens => .ok givens
  | row, cells :: rest, givens =>
    if cells.length = 9 then
      match readCells row 0 cells givens with
      | .error e => .error e
      | .ok givens => readRows (row + 1) rest givens
    else .error (.invalidLineLength row cells.length)

/-- The trimmed lines of a text from the first that is not empty. -/
def boardLines (text : String) : List (List Char) :=
  ((Text.lines text.toList).map Text.trim).dropWhile List.isEmpty

/-- Reads a text. -/
def read (text : String) : Except ParseError Description :=
  match splitBoard (boardLines text) with
  | .error e => .error e
  | .ok (rows, rest) =>
    match readRows 0 rows [] with
    | .error e => .error e
    | .ok givens =>
      .ok {
        givens := givens.reverse
        eliminations := (rest.flatMap Text.words).map String.ofList }

end Reader

end ExactCover.Sudoku
