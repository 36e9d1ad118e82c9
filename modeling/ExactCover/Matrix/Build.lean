/-
ExactCover.Matrix.Build — adding constraints and candidates to a matrix.

A constraint takes one cell, its header; a primary one joins the circle of active
constraints at its end. A candidate takes one cell for each of its constraints,
in ascending order of constraint whatever order their names come in, each at the
end of its column, and joins the circle of active candidates at its end. So
numbers ascend along every circle. An addition that fails changes nothing.

Of several faults of a candidate the first of these is reported: its name is
taken, a constraint is unknown (the first such name), it has no constraints, it
names a constraint twice (the lowest such constraint).
-/
import ExactCover.Matrix.Basic
import ExactCover.Text.Quoted

namespace ExactCover

/-- Why a matrix cannot be built as asked. -/
inductive BuildError where
  | duplicateConstraint (name : String)
  | duplicateCandidate (name : String)
  | unknownConstraint (candidate constraint : String)
  | repeatedConstraint (candidate constraint : String)
  | emptyCandidate (name : String)
  | unknownCandidate (name : String)
  /-- The candidate is known, but it has been ruled out or placed. -/
  | inactiveCandidate (name : String)
  deriving DecidableEq, Repr

open Text in
/-- The sentence that reports an error. -/
def BuildError.message : BuildError → String
  | .duplicateConstraint name => s!"constraint {quoted name} defined twice"
  | .duplicateCandidate name => s!"candidate {quoted name} defined twice"
  | .unknownConstraint r c =>
    s!"candidate {quoted r} references unknown constraint {quoted c}"
  | .repeatedConstraint r c =>
    s!"candidate {quoted r} hits constraint {quoted c} more than once"
  | .emptyCandidate name => s!"candidate {quoted name} hits no constraint"
  | .unknownCandidate name => s!"unknown candidate {quoted name}"
  | .inactiveCandidate name => s!"candidate {quoted name} is no longer possible"

namespace Board

variable {P : Type}

/-- Appends a constraint, with the next cell as its header. -/
def addConstraint (b : Board P) (name : String) (kind : Kind) (primary : Bool) : Board P :=
  let c := b.constraints.size
  let head := b.cells.size
  { b with
    constraints := b.constraints.push ⟨name, kind, primary, head⟩
    cells := b.cells.push ⟨c, 0⟩ }

/-- Appends a cell. -/
def addCell (b : Board P) (cell : Cell) : Board P := { b with cells := b.cells.push cell }

/-- Appends a candidate. -/
def addCandidate (b : Board P) (k : Candidate P) : Board P :=
  { b with candidates := b.candidates.push k }

end Board

namespace Links

/-- Makes room for a constraint whose header is the next cell. -/
def addConstraint (l : Links) (primary : Bool) : Links :=
  { l with
    constraints := if primary then l.constraints.pushBefore 0 else l.constraints.pushAlone
    columns := l.columns.pushAlone
    lens := l.lens.push .zero
    covered := l.covered.push false
    activeConstraints := if primary then l.activeConstraints.up else l.activeConstraints }

/-- Puts the next cell at the end of the column of constraint `c` with header `head`. -/
def addCell (l : Links) (c : ConstraintId) (head : CellId) : Links :=
  { l with
    columns := l.columns.pushBefore head
    lens := l.lens.modify c Tally.up }

/-- Puts the next candidate at the end of the active ones. -/
def addCandidate (l : Links) : Links :=
  { l with
    candidates := l.candidates.pushBefore 0
    active := l.active.push true
    activeCandidates := l.activeCandidates.up }

end Links

namespace Matrix

variable {P : Type}

/-- Adds a constraint and gives its number. -/
def addConstraint (m : Matrix P) (name : String) (kind : Kind) (primary : Bool) :
    Except BuildError (Matrix P × ConstraintId) :=
  match m.constraintByName? name with
  | some _ => .error (.duplicateConstraint name)
  | none =>
    let c := m.board.constraints.size
    .ok ({ m with
      board := m.board.addConstraint name kind primary
      links := m.links.addConstraint primary }, c)

/-- The numbers of the constraints with these names, or the first name that no constraint has. -/
def resolveConstraints (m : Matrix P) : List String → Except String (List ConstraintId)
  | [] => .ok []
  | name :: names =>
    match m.constraintByName? name with
    | none => .error name
    | some c => (m.resolveConstraints names).map (c :: ·)

/-- The first member of a list that equals the next one. -/
def firstRepeat : List ConstraintId → Option ConstraintId
  | a :: b :: rest => if a = b then some a else firstRepeat (b :: rest)
  | _ => none

/-- Adds a cell of candidate `r` at the end of the column of `c`. -/
def addCell (m : Matrix P) (r : CandidateId) (c : ConstraintId) : Matrix P :=
  let head := m.head c
  { m with
    board := m.board.addCell ⟨c, r⟩
    links := m.links.addCell c head }

/-- Adds a candidate that satisfies the named constraints and gives its number. -/
def addCandidate (m : Matrix P) (name : String) (constraints : List String) (payload : P) :
    Except BuildError (Matrix P × CandidateId) :=
  match m.candidateByName? name with
  | some _ => .error (.duplicateCandidate name)
  | none =>
    match m.resolveConstraints constraints with
    | .error unknown => .error (.unknownConstraint name unknown)
    | .ok [] => .error (.emptyCandidate name)
    | .ok found =>
      let sorted := found.mergeSort
      match firstRepeat sorted with
      | some c => .error (.repeatedConstraint name (m.constraintName c))
      | none =>
        let r := m.board.candidates.size
        let first := m.board.cells.size
        let m := sorted.foldl (fun m c => m.addCell r c) m
        .ok ({ m with
          board := m.board.addCandidate ⟨name, some payload, first, sorted.length⟩
          links := m.links.addCandidate }, r)

end Matrix

end ExactCover
