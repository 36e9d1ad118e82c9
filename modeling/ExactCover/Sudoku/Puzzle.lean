/-
ExactCover.Sudoku.Puzzle — sudoku as an exact cover problem.

The matrix of the empty board has 324 constraints: that each cell has a digit,
and that each row, each column and each box has each digit. Its 729 candidates
are the placements, each with the four constraints that it satisfies. A puzzle
is this matrix with the given placements as hints.
-/
import ExactCover.Search.Solutions
import ExactCover.Solver
import ExactCover.Sudoku.Grid
import ExactCover.Sudoku.Reader

namespace ExactCover.Sudoku

/-- A sudoku under way. -/
structure Puzzle where
  matrix : Matrix Placement

/-- The constraints of the board in order: cells, rows, columns, boxes. -/
def boardConstraints : List (String × Kind) :=
  let units (name : Nat → Nat → String) (kind : Kind) :=
    (List.range 9).flatMap fun unit => (List.range' 1 9).map fun digit => (name unit digit, kind)
  ((List.range 9).flatMap fun row => (List.range 9).map fun col => (cellName row col, Kind.cell))
    ++ units rowName .row ++ units columnName .column ++ units boxName .box

/-- The placements in the order of the candidates: column by column. -/
def boardPlacements : List Placement :=
  (List.range 9).flatMap fun col => (List.range 9).flatMap fun row =>
    (List.range' 1 9).map fun digit => Placement.mk row col digit

/-- Adds primary constraints in order. -/
def addConstraints (m : Matrix Placement) :
    List (String × Kind) → Except BuildError (Matrix Placement)
  | [] => .ok m
  | (name, kind) :: rest =>
    match m.addConstraint name kind true with
    | .error e => .error e
    | .ok (m, _) => addConstraints m rest

/-- Adds placements as candidates in order. -/
def addPlacements (m : Matrix Placement) :
    List Placement → Except BuildError (Matrix Placement)
  | [] => .ok m
  | p :: rest =>
    match m.addCandidate p.name p.constraintNames p with
    | .error e => .error e
    | .ok (m, _) => addPlacements m rest

namespace Puzzle

/-- A board of these constraints with these placements. -/
def assemble (constraints : List (String × Kind)) (placements : List Placement) :
    Except BuildError Puzzle :=
  match addConstraints .empty constraints with
  | .error e => .error e
  | .ok m =>
    match addPlacements m placements with
    | .error e => .error e
    | .ok m => .ok ⟨m⟩

/-- The empty board. -/
def empty : Except BuildError Puzzle := assemble boardConstraints boardPlacements

/-- Fixes the given placements in order. -/
def addGivens (m : Matrix Placement) : List Placement → Except ParseError (Matrix Placement)
  | [] => .ok m
  | p :: rest =>
    match m.addHint p.name with
    | .error e => .error (.build e)
    | .ok (m, _) => addGivens m rest

/-- Removes the named candidates in order. -/
def eliminateAll (m : Matrix Placement) : List String → Except ParseError (Matrix Placement)
  | [] => .ok m
  | name :: rest =>
    match m.candidateByName? name with
    | none => .error (.unknownCandidate name)
    | some _ =>
      match m.eliminateCandidate name with
      | .error e => .error (.build e)
      | .ok (m, _) => eliminateAll m rest

/-- The puzzle that a description describes. -/
def ofDescription (d : Description) : Except ParseError Puzzle :=
  (empty.mapError .build).bind fun p =>
    (addGivens p.matrix d.givens).bind fun m =>
      (eliminateAll m d.eliminations).map Puzzle.mk

/-- Reads a puzzle from its text. -/
def parse (text : String) : Except ParseError Puzzle :=
  match Reader.read text with
  | .error e => .error e
  | .ok d => ofDescription d

/-- Reads a puzzle from the lines of its text. -/
def ofRows (rows : List String) : Except ParseError Puzzle := parse ("\n".intercalate rows)

/-- The grid that holds the placements of these candidates. -/
def gridOf (p : Puzzle) (candidates : List CandidateId) : Grid :=
  .ofPlacements (candidates.filterMap p.matrix.payload)

/-- The given and the solved cells. -/
def grid (p : Puzzle) : Grid := p.gridOf p.matrix.solutionCandidates

/-- Solves by deductions. -/
def solveLogically (p : Puzzle) (config : SolverConfig) : Except SolveError (Puzzle × Report) :=
  (Solver.solve config.effective p.matrix).map fun (m, report) => (⟨m⟩, report)

/-- The first solution of the puzzle in its present state. -/
def solveOne (p : Puzzle) : Puzzle × Except SearchError (Option Grid) :=
  match Search.solveOne p.matrix with
  | (m, answer) => (⟨m⟩, answer.map fun solution => solution.map (gridOf ⟨m⟩))

/-- The solution of the puzzle in its present state, if there is exactly one. -/
def solveUnique (p : Puzzle) : Puzzle × Except SearchError (Option Grid) :=
  match Search.solveAtMost p.matrix 2 with
  | (m, answer) =>
    (⟨m⟩, answer.map fun
      | [solution] => some (gridOf ⟨m⟩ solution)
      | _ => none)

/-- The number of solutions, or `limit` if there are more. -/
def countAtMost (p : Puzzle) (limit : Nat) : Puzzle × Except SearchError Nat :=
  match Search.countSolutions p.matrix limit with
  | (m, answer) => (⟨m⟩, answer)

end Puzzle

end ExactCover.Sudoku
