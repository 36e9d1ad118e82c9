/-
ExactCover.Matrix.Hint — placing a candidate, and fixing or removing one by name.

To place a candidate is to cover all of its constraints, the one it is addressed
through first. Every other candidate that shares a constraint with it is ruled
out on the way, and so is the candidate itself; the changes report it once, as
hinted or solved, ahead of the others.
-/
import ExactCover.Change
import ExactCover.Matrix.Build
import ExactCover.Matrix.Cover

namespace ExactCover.Matrix

variable {P : Type}

/-- Covers the constraint of a cell and then the others of its candidate. -/
def place (m : Matrix P) (h : CellId) : Effect P :=
  let c := m.constraintOf h
  match m.cover c with
  | ⟨m, touched, updates⟩ =>
    match m.coverRow h with
    | ⟨m, more, moreUpdates⟩ => ⟨m, touched ++ more, updates + moreUpdates⟩

theorem relinked_place (m : Matrix P) (h : CellId) : Relinked m (m.place h).matrix :=
  (relinked_cover m _).trans (relinked_coverRow _ h)

/-- Undoes the `place` of the same cell. -/
def unplace (m : Matrix P) (h : CellId) : Effect P :=
  let c := m.constraintOf h
  match m.uncoverRow h with
  | ⟨m, touched, updates⟩ =>
    match m.uncover c with
    | ⟨m, more, moreUpdates⟩ => ⟨m, touched ++ more, updates + moreUpdates⟩

/-- The candidate of that name, if it is still possible. -/
def activeByName (m : Matrix P) (name : String) : Except BuildError CandidateId :=
  match m.candidateByName? name with
  | none => .error (.unknownCandidate name)
  | some r => if m.isCandidateActive r then .ok r else .error (.inactiveCandidate name)

/-- Fixes a candidate as part of every solution. -/
def addHint (m : Matrix P) (name : String) : Except BuildError (Matrix P × List Change) :=
  match m.activeByName name with
  | .error e => .error e
  | .ok r =>
    let h := m.firstCell r
    match m.place h with
    | ⟨m, touched, _⟩ =>
      .ok ({ m with hints := m.hints.push h },
        .hinted r :: (touched.filter (· != r)).map .removed)

/-- Removes a candidate by name. One that is no longer possible is left alone. -/
def eliminateCandidate (m : Matrix P) (name : String) :
    Except BuildError (Matrix P × List Change) :=
  match m.activeByName name with
  | .error (.inactiveCandidate _) => .ok (m, [])
  | .error e => .error e
  | .ok r => .ok ((m.eliminateRow (m.firstCell r)).matrix, [.removed r])

end ExactCover.Matrix
