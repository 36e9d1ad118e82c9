/-
ExactCover.Sudoku.Grid — the digits of a board as text.

A grid holds 81 numbers row by row, 0 for an empty cell. It is written as one
line of 81 characters or as nine lines of nine, with a point for every entry
that is not a digit from 1 to 9.
-/
import ExactCover.Sudoku.Placement

namespace ExactCover.Sudoku

/-- The numbers of a board, row by row. -/
structure Grid where
  cells : Vector Nat 81
  deriving DecidableEq, Repr

/-- The character of an entry. -/
def cellChar (digit : Nat) : Char :=
  if 1 ≤ digit ∧ digit ≤ 9 then Char.ofNat ('0'.toNat + digit) else '.'

namespace Grid

/-- The board without digits. -/
def empty : Grid := ⟨Vector.replicate 81 0⟩

/-- The place of a cell in the row-by-row order. -/
def place (row col : Nat) : Nat := row * 9 + col

/-- What a cell holds: a digit or nothing. A column past the end of its row is in a later row; past
the last row there is no cell. -/
def cell? (g : Grid) (row col : Nat) : Option (Option Nat) :=
  g.cells[place row col]?.map fun digit => if digit = 0 then none else some digit

/-- The grid with the digit of a placement in its cell. -/
def put (g : Grid) (p : Placement) : Grid :=
  ⟨g.cells.setIfInBounds (place p.row p.col) p.digit⟩

/-- The grid that holds the digits of these placements; of two in one cell the later counts. -/
def ofPlacements (ps : List Placement) : Grid := ps.foldl put empty

/-- Every cell has an entry. -/
def isComplete (g : Grid) : Bool := g.cells.all (· != 0)

/-- The characters of a row. -/
def rowText (g : Grid) (row : Nat) : String :=
  String.ofList (((g.cells.toList.drop (9 * row)).take 9).map cellChar)

/-- The grid as a line of 81 characters. -/
def line (g : Grid) : String := String.ofList (g.cells.toList.map cellChar)

/-- The grid as nine lines. -/
def text (g : Grid) : String := "\n".intercalate ((List.range 9).map g.rowText)

/-- The grid as a labelled line. -/
def labelled (g : Grid) : String := s!"Grid({g.line})"

end Grid

end ExactCover.Sudoku
