/-
ExactCover.Strategy.Elimination — what the strategies have in common.

Most patterns end in the same way: of some members exactly one is in every
solution, so each further candidate that conflicts with all of them is out.
`commonConflicts` lists these candidates, each addressed by its first cell, and
`distinct` joins several such lists without naming a candidate twice.
-/
import ExactCover.Deduction
import ExactCover.Matrix.Relation

namespace ExactCover.Matrix

variable {P : Type}

/-- The two cells of a constraint that has exactly two left. -/
def twoCells? (m : Matrix P) (c : ConstraintId) : Option CellPair :=
  match m.column c with
  | [a, b] => some (a, b)
  | _ => none

/-- The active candidates outside `members` that conflict with all of them. -/
def commonConflicts (m : Matrix P) (members : List CandidateId) : List CellId :=
  (m.activeCandidates.filter fun r =>
    !members.contains r && members.all fun x => m.conflicts r x).map m.firstCell

/-- The cells of a list, each candidate at its first occurrence only. -/
def distinct (m : Matrix P) (cells : List CellId) : List CellId :=
  (cells.foldl (fun kept h =>
    if kept.any fun k => m.candidateOf k == m.candidateOf h then kept else h :: kept) []).reverse

/-- The names of constraints as a list in a sentence: `r05`, or `r05, r13 and c24`. -/
def constraintList (m : Matrix P) (constraints : List ConstraintId) : String :=
  let names := constraints.map m.constraintName
  match names.dropLast, names.getLast? with
  | _, none => ""
  | [], some last => last
  | rest, some last => ", ".intercalate rest ++ " and " ++ last

/-- The name of the candidate of a cell. -/
def nameAt (m : Matrix P) (h : CellId) : String := m.candidateName (m.candidateOf h)

end ExactCover.Matrix
