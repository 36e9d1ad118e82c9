/-
ExactCover.Matrix.Basic — the sparse constraint matrix and how it is read.

Constraints are the columns of an exact cover problem and candidates its rows.
A cell is a one of the matrix: it says that its candidate satisfies its
constraint. Constraints, candidates and cells are numbered in the order in which
they are added, from 1; number 0 of each is a sentinel.

What a matrix *is* never changes once it is built: it is the `Board` of its
constraints, candidates and cells. What is *left* of it is in `Links`: the circle
of active constraints, the circle of active candidates, and one circle of cells
for every constraint, closed by the constraint's header cell. The views of these
circles are `activeConstraints`, `activeCandidates` and `column`; every question
below is asked of the views.

A candidate's cells have consecutive numbers in ascending order of constraint,
so its row needs no links: it is the range `row`.
-/
import ExactCover.Ring
import ExactCover.Tally

namespace ExactCover

/-- Number of a constraint; 0 is the sentinel. -/
abbrev ConstraintId := Nat

/-- Number of a candidate; 0 is the sentinel. -/
abbrev CandidateId := Nat

/-- Number of a cell; 0 is the sentinel. -/
abbrev CellId := Nat

/-- Two cells in order. -/
abbrev CellPair := CellId × CellId

/-- What sort of unit a constraint stands for. It only restricts or describes deductions. -/
inductive Kind where
  | cell
  | row
  | column
  | box
  | other
  deriving DecidableEq, Repr, Inhabited

/-- The word for a kind. -/
def Kind.label : Kind → String
  | .cell => "cell"
  | .row => "row"
  | .column => "column"
  | .box => "box"
  | .other => "constraint"

/-- A column of the matrix. -/
structure Constraint where
  name : String
  kind : Kind
  /-- A primary constraint has to be satisfied exactly once, any other at most once. -/
  primary : Bool
  /-- The header cell, which belongs to no candidate. -/
  head : CellId
  deriving DecidableEq, Repr

/-- A row of the matrix. -/
structure Candidate (P : Type) where
  name : String
  /-- What the builder of the matrix keeps with the candidate; the sentinel has none. -/
  payload : Option P
  /-- The cell of its lowest constraint. -/
  first : CellId
  /-- How many cells it has. -/
  size : Nat
  deriving DecidableEq, Repr

/-- Where a cell stands. A header cell belongs to the sentinel candidate. -/
structure Cell where
  constraint : ConstraintId
  candidate : CandidateId
  deriving DecidableEq, Repr, Inhabited

/-- The sentinel constraint. -/
def Constraint.root : Constraint := ⟨"", .other, false, 0⟩

/-- The sentinel candidate. -/
def Candidate.root (P : Type) : Candidate P := ⟨"", none, 0, 0⟩

/-- The sentinel cell. -/
def Cell.root : Cell := ⟨0, 0⟩

/-- What a matrix is. Entry 0 of each array is the sentinel. -/
structure Board (P : Type) where
  constraints : Array Constraint
  candidates : Array (Candidate P)
  cells : Array Cell
  deriving DecidableEq, Repr

/-- The board that holds the sentinels alone. -/
def Board.empty (P : Type) : Board P := ⟨#[.root], #[.root P], #[.root]⟩

/-- What is left of a matrix. -/
structure Links where
  /-- The circle of active constraints behind sentinel 0; any other constraint stands alone. -/
  constraints : Ring
  /-- The circle of active candidates behind sentinel 0. -/
  candidates : Ring
  /-- For every constraint the circle of its cells behind its header. -/
  columns : Ring
  /-- How many cells each constraint has left. -/
  lens : Array Tally
  /-- Which constraints are covered. -/
  covered : Array Bool
  /-- Which candidates are still possible. -/
  active : Array Bool
  /-- How many primary constraints are not covered. -/
  activeConstraints : Tally
  /-- How many candidates are still possible. -/
  activeCandidates : Tally
  deriving DecidableEq, Repr

/-- The links of a matrix that holds the sentinels alone. -/
def Links.empty : Links where
  constraints := Ring.empty.pushAlone
  candidates := Ring.empty.pushAlone
  columns := Ring.empty.pushAlone
  lens := #[.zero]
  covered := #[false]
  active := #[false]
  activeConstraints := .zero
  activeCandidates := .zero

/-- An exact cover problem together with the partial solution reached in it. -/
structure Matrix (P : Type) where
  board : Board P
  links : Links
  /-- The cells of the candidates that were fixed before solving, in order. -/
  hints : Array CellId
  /-- The cells of the candidates that were chosen while solving, in order. -/
  solution : Array CellId

namespace Matrix

variable {P : Type}

/-- The matrix without constraints and candidates. -/
def empty : Matrix P where
  board := .empty P
  links := .empty
  hints := #[]
  solution := #[]

/-! ## What never changes -/

/-- The record of a constraint. -/
def constraint (m : Matrix P) (c : ConstraintId) : Constraint := m.board.constraints.getD c .root

/-- The record of a candidate. -/
def candidate (m : Matrix P) (r : CandidateId) : Candidate P := m.board.candidates.getD r (.root P)

/-- The record of a cell. -/
def cell (m : Matrix P) (h : CellId) : Cell := m.board.cells.getD h .root

/-- The constraint a cell belongs to. -/
def constraintOf (m : Matrix P) (h : CellId) : ConstraintId := (m.cell h).constraint

/-- The candidate a cell belongs to. -/
def candidateOf (m : Matrix P) (h : CellId) : CandidateId := (m.cell h).candidate

def constraintName (m : Matrix P) (c : ConstraintId) : String := (m.constraint c).name

def candidateName (m : Matrix P) (r : CandidateId) : String := (m.candidate r).name

def kind (m : Matrix P) (c : ConstraintId) : Kind := (m.constraint c).kind

def isPrimary (m : Matrix P) (c : ConstraintId) : Bool := (m.constraint c).primary

def payload (m : Matrix P) (r : CandidateId) : Option P := (m.candidate r).payload

/-- The header cell of a constraint. -/
def head (m : Matrix P) (c : ConstraintId) : CellId := (m.constraint c).head

/-- The cell by which a candidate is usually addressed. -/
def firstCell (m : Matrix P) (r : CandidateId) : CellId := (m.candidate r).first

/-- All cells of a candidate in ascending order, also those of covered constraints. -/
def row (m : Matrix P) (r : CandidateId) : List CellId :=
  List.range' (m.candidate r).first (m.candidate r).size

/-- The other cells of a cell's candidate, going right from it and round to it again. -/
def rightOf (m : Matrix P) (h : CellId) : List CellId :=
  let k := m.candidate (m.candidateOf h)
  List.range' (h + 1) (k.first + k.size - (h + 1)) ++ List.range' k.first (h - k.first)

/-- The other cells of a cell's candidate, going left from it and round to it again. -/
def leftOf (m : Matrix P) (h : CellId) : List CellId := (m.rightOf h).reverse

/-- Number of constraints ever added. -/
def constraintCount (m : Matrix P) : Nat := m.board.constraints.size - 1

/-- Number of candidates ever added. -/
def candidateCount (m : Matrix P) : Nat := m.board.candidates.size - 1

/-- The constraint of that name. The sentinel, which has no header of its own, has no name. -/
def constraintByName? (m : Matrix P) (name : String) : Option ConstraintId :=
  m.board.constraints.findIdx? fun k => k.head != 0 && k.name == name

/-- The candidate of that name. The sentinel, which has no cells, has no name. -/
def candidateByName? (m : Matrix P) (name : String) : Option CandidateId :=
  m.board.candidates.findIdx? fun k => k.size != 0 && k.name == name

/-! ## What is left -/

/-- The uncovered primary constraints, in ascending order. -/
def activeConstraints (m : Matrix P) : List ConstraintId := m.links.constraints.forward 0

/-- The candidates that are still possible, in ascending order. -/
def activeCandidates (m : Matrix P) : List CandidateId := m.links.candidates.forward 0

/-- The cells left in a constraint, top to bottom. -/
def column (m : Matrix P) (c : ConstraintId) : List CellId :=
  m.links.columns.forward (m.head c)

/-- The cells left in a constraint, bottom to top. -/
def columnUpward (m : Matrix P) (c : ConstraintId) : List CellId :=
  m.links.columns.backward (m.head c)

/-- How many candidates a constraint has left. -/
def len (m : Matrix P) (c : ConstraintId) : Nat := (m.links.lens.getD c .zero).count

def isCovered (m : Matrix P) (c : ConstraintId) : Bool := m.links.covered.getD c false

/-- Whether a constraint is primary and not covered. -/
def isConstraintActive (m : Matrix P) (c : ConstraintId) : Bool := m.isPrimary c && !m.isCovered c

/-- Whether a candidate is still possible. -/
def isCandidateActive (m : Matrix P) (r : CandidateId) : Bool := m.links.active.getD r false

/-- How many primary constraints are not covered. -/
def activeConstraintCount (m : Matrix P) : Nat := m.links.activeConstraints.count

/-- How many candidates are still possible. -/
def activeCandidateCount (m : Matrix P) : Nat := m.links.activeCandidates.count

/-- The active constraints with exactly `n` candidates left. -/
def activeConstraintsOfLen (m : Matrix P) (n : Nat) : List ConstraintId :=
  m.activeConstraints.filter fun c => m.len c == n

/-- Some active constraint can no longer be satisfied. -/
def isBlocked (m : Matrix P) : Bool := m.activeConstraints.any fun c => m.len c == 0

/-- Every primary constraint is satisfied. -/
def isSolved (m : Matrix P) : Bool := m.activeConstraintCount == 0

/-- The candidates that were fixed, then those that were chosen. -/
def solutionCandidates (m : Matrix P) : List CandidateId :=
  (m.hints.toList ++ m.solution.toList).map m.candidateOf

/-! ## Ordinals and labels -/

/-- The key by which constraints and candidates are ordered when sets of them are compared:
their number in 32 bits. -/
def ordinal (id : Nat) : UInt32 := id.toUInt32

/-- A cell with its surroundings, as in `r0c0d5: p00 r05 c05 b05 (1 of 4)`. -/
def rowName (m : Matrix P) (h : CellId) : String :=
  let r := m.candidateOf h
  let cells := m.row r
  let names := " ".intercalate (cells.map fun x => m.constraintName (m.constraintOf x))
  let position := match cells.idxOf? h with
    | some i => i + 1
    | none => 0
  s!"{m.candidateName r}: {names} ({position} of {cells.length})"

end Matrix

end ExactCover
