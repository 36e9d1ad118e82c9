/-
ExactCover.Sudoku.Placement — a digit in a cell, and its names.

Rows, columns and boxes are counted from 0. A placement satisfies four
constraints: its cell has a digit, and its row, its column and its box have that
digit. The names of these constraints, and of the candidate that the placement
is, are made of their numbers.
-/

namespace ExactCover.Sudoku

/-- A digit in a cell. On the board row and column are below 9 and the digit is 1 to 9. -/
structure Placement where
  row : Nat
  col : Nat
  digit : Nat
  deriving DecidableEq, Repr

/-- The constraint that a cell has a digit. -/
def cellName (row col : Nat) : String := s!"p{row}{col}"

/-- The constraint that a row has a digit. -/
def rowName (row digit : Nat) : String := s!"r{row}{digit}"

/-- The constraint that a column has a digit. -/
def columnName (col digit : Nat) : String := s!"c{col}{digit}"

/-- The constraint that a box has a digit. -/
def boxName (box digit : Nat) : String := s!"b{box}{digit}"

namespace Placement

/-- The box of the cell, row by row. The number is kept in a byte. -/
def box (p : Placement) : Nat := (p.row / 3 * 3 + p.col / 3) % 256

/-- The name of the candidate, as in `r3c0d2`. -/
def name (p : Placement) : String := s!"r{p.row}c{p.col}d{p.digit}"

/-- The names of the four constraints that the placement satisfies. -/
def constraintNames (p : Placement) : List String :=
  [cellName p.row p.col, rowName p.row p.digit, columnName p.col p.digit, boxName p.box p.digit]

end Placement

end ExactCover.Sudoku
