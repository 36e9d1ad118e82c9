/-
ExactCover.Matrix.Cover — taking parts of a matrix away and putting them back.

Covering a constraint takes it off the active ones and rules out every candidate
left in its column: each leaves all its other columns, and the circle of active
candidates. Eliminating a candidate takes it out of all its columns and leaves
its constraints active. Both keep the links of what they take out, so that the
inverses, called in exactly the reverse order, restore every link.

An operation answers with an `Effect`: the matrix, the candidates it touched in
order, and how many constraints and cells it took out or put back. A column that
is covered keeps its own cells linked, so the cells to visit can be listed before
the first is touched. Nothing but the links of a matrix changes: `Relinked` says so
of two matrices, and there is one lemma for each operation.
-/
import ExactCover.Matrix.Basic

namespace ExactCover

namespace Links

/-- Takes a constraint off the active ones. -/
def unlinkConstraint (l : Links) (c : ConstraintId) (primary : Bool) : Links :=
  { l with
    constraints := l.constraints.unlink c
    covered := l.covered.setIfInBounds c true
    activeConstraints := if primary then l.activeConstraints.down else l.activeConstraints }

/-- Puts a constraint back among the active ones. -/
def relinkConstraint (l : Links) (c : ConstraintId) (primary : Bool) : Links :=
  { l with
    constraints := l.constraints.relink c
    covered := l.covered.setIfInBounds c false
    activeConstraints := if primary then l.activeConstraints.up else l.activeConstraints }

/-- Takes a candidate off the active ones. -/
def unlinkCandidate (l : Links) (r : CandidateId) : Links :=
  { l with
    candidates := l.candidates.unlink r
    active := l.active.setIfInBounds r false
    activeCandidates := l.activeCandidates.down }

/-- Puts a candidate back among the active ones. -/
def relinkCandidate (l : Links) (r : CandidateId) : Links :=
  { l with
    candidates := l.candidates.relink r
    active := l.active.setIfInBounds r true
    activeCandidates := l.activeCandidates.up }

/-- Takes a cell out of the column of its constraint `c`. -/
def unlinkCell (l : Links) (h : CellId) (c : ConstraintId) : Links :=
  { l with
    columns := l.columns.unlink h
    lens := l.lens.modify c Tally.down }

/-- Puts a cell back into the column of its constraint `c`. -/
def relinkCell (l : Links) (h : CellId) (c : ConstraintId) : Links :=
  { l with
    columns := l.columns.relink h
    lens := l.lens.modify c Tally.up }

end Links

/-- What an operation did. -/
structure Effect (P : Type) where
  matrix : Matrix P
  /-- The candidates that were ruled out or became possible, in order. -/
  touched : List CandidateId
  /-- How many constraints and cells were taken out or put back. -/
  updates : Nat

namespace Matrix

variable {P : Type}

/-! ## Single links -/

def unlinkConstraint (m : Matrix P) (c : ConstraintId) : Matrix P :=
  let primary := m.isPrimary c
  { m with links := m.links.unlinkConstraint c primary }

def relinkConstraint (m : Matrix P) (c : ConstraintId) : Matrix P :=
  let primary := m.isPrimary c
  { m with links := m.links.relinkConstraint c primary }

def unlinkCandidate (m : Matrix P) (r : CandidateId) : Matrix P :=
  { m with links := m.links.unlinkCandidate r }

def relinkCandidate (m : Matrix P) (r : CandidateId) : Matrix P :=
  { m with links := m.links.relinkCandidate r }

def unlinkCell (m : Matrix P) (h : CellId) : Matrix P :=
  let c := m.constraintOf h
  { m with links := m.links.unlinkCell h c }

def relinkCell (m : Matrix P) (h : CellId) : Matrix P :=
  let c := m.constraintOf h
  { m with links := m.links.relinkCell h c }

/-! ## Covering a constraint -/

/-- Takes the candidate of a cell out of all columns but the cell's own. -/
def hideRow (m : Matrix P) (h : CellId) : Matrix P :=
  let others := m.rightOf h
  let r := m.candidateOf h
  (others.foldl unlinkCell m).unlinkCandidate r

/-- Puts the candidate of a cell back into all columns but the cell's own. -/
def showRow (m : Matrix P) (h : CellId) : Matrix P :=
  let others := m.leftOf h
  let r := m.candidateOf h
  others.foldl relinkCell (m.relinkCandidate r)

/-- How much is taken out or put back with a constraint: itself, and the `others` of each of its
rows. -/
def linkCount (others : CellId → List CellId) (rows : List CellId) : Nat :=
  1 + (rows.map fun h => (others h).length).foldr (· + ·) 0

theorem linkCount_reverse (others : CellId → List CellId) (rows : List CellId) :
    linkCount others rows.reverse = linkCount others rows := by
  rw [linkCount, linkCount, List.map_reverse, ← List.sum_eq_foldr, List.sum_reverse,
    List.sum_eq_foldr]

theorem linkCount_leftOf (m : Matrix P) (rows : List CellId) :
    linkCount m.leftOf rows = linkCount m.rightOf rows := by
  simp only [linkCount, leftOf, List.length_reverse]

/-- Removes a constraint and every candidate that satisfies it. -/
def cover (m : Matrix P) (c : ConstraintId) : Effect P :=
  let rows := m.column c
  let touched := rows.map m.candidateOf
  let updates := linkCount m.rightOf rows
  { matrix := rows.foldl hideRow (m.unlinkConstraint c), touched, updates }

/-- Undoes the `cover` of the same constraint. -/
def uncover (m : Matrix P) (c : ConstraintId) : Effect P :=
  let rows := m.columnUpward c
  let touched := rows.map m.candidateOf
  let updates := linkCount m.leftOf rows
  { matrix := (rows.foldl showRow m).relinkConstraint c, touched, updates }

/-- Runs one operation after another and joins what they report. -/
def sequence (f : Matrix P → ConstraintId → Effect P) (m : Matrix P) :
    List ConstraintId → Effect P
  | [] => { matrix := m, touched := [], updates := 0 }
  | c :: cs =>
    match f m c with
    | ⟨m, touched, updates⟩ =>
      match sequence f m cs with
      | ⟨m, rest, more⟩ => ⟨m, touched ++ rest, updates + more⟩

/-- Covers every constraint of the cell's candidate except the cell's own. -/
def coverRow (m : Matrix P) (h : CellId) : Effect P :=
  let others := (m.rightOf h).map m.constraintOf
  sequence cover m others

/-- Undoes the `coverRow` of the same cell. -/
def uncoverRow (m : Matrix P) (h : CellId) : Effect P :=
  let others := (m.leftOf h).map m.constraintOf
  sequence uncover m others

/-! ## Eliminating a candidate -/

/-- Removes just the cell's candidate; its constraints only get shorter. -/
def eliminateRow (m : Matrix P) (h : CellId) : Effect P :=
  let cells := h :: m.rightOf h
  let r := m.candidateOf h
  { matrix := (cells.foldl unlinkCell m).unlinkCandidate r
    touched := [r]
    updates := cells.length }

/-- Undoes the `eliminateRow` of the same cell. -/
def restoreRow (m : Matrix P) (h : CellId) : Effect P :=
  let cells := m.leftOf h ++ [h]
  let r := m.candidateOf h
  { matrix := cells.foldl relinkCell (m.relinkCandidate r)
    touched := [r]
    updates := cells.length }

/-! ## The solution stack -/

/-- Records a cell whose constraints are covered as part of the solution. -/
def pushSolution (m : Matrix P) (h : CellId) : Matrix P :=
  { m with solution := m.solution.push h }

/-- Takes the last cell of the solution back. -/
def popSolution (m : Matrix P) : Matrix P :=
  { m with solution := m.solution.pop }

@[simp] theorem popSolution_pushSolution (m : Matrix P) (h : CellId) :
    (m.pushSolution h).popSolution = m := by
  simp [pushSolution, popSolution]

/-! ## What is never touched

Covering and eliminating, and their inverses, change the links alone: the board, the hints and
the solution stay. -/

/-- `n` is `m` with other links. -/
structure Relinked (m n : Matrix P) : Prop where
  board : n.board = m.board
  hints : n.hints = m.hints
  solution : n.solution = m.solution

namespace Relinked

theorem refl (m : Matrix P) : Relinked m m := ⟨rfl, rfl, rfl⟩

theorem trans {m n o : Matrix P} (h : Relinked m n) (k : Relinked n o) : Relinked m o :=
  ⟨k.board.trans h.board, k.hints.trans h.hints, k.solution.trans h.solution⟩

theorem foldl {α : Type} {f : Matrix P → α → Matrix P} (hf : ∀ m a, Relinked m (f m a))
    (xs : List α) (m : Matrix P) : Relinked m (xs.foldl f m) := by
  induction xs generalizing m with
  | nil => exact refl m
  | cons a xs ih => exact (hf m a).trans (ih (f m a))

end Relinked

theorem relinked_unlinkCell (m : Matrix P) (h : CellId) : Relinked m (m.unlinkCell h) :=
  ⟨rfl, rfl, rfl⟩

theorem relinked_relinkCell (m : Matrix P) (h : CellId) : Relinked m (m.relinkCell h) :=
  ⟨rfl, rfl, rfl⟩

theorem relinked_hideRow (m : Matrix P) (h : CellId) : Relinked m (m.hideRow h) :=
  (Relinked.foldl relinked_unlinkCell (m.rightOf h) m).trans ⟨rfl, rfl, rfl⟩

theorem relinked_showRow (m : Matrix P) (h : CellId) : Relinked m (m.showRow h) :=
  Relinked.trans (n := m.relinkCandidate (m.candidateOf h)) ⟨rfl, rfl, rfl⟩
    (Relinked.foldl relinked_relinkCell (m.leftOf h) _)

theorem relinked_cover (m : Matrix P) (c : ConstraintId) : Relinked m (m.cover c).matrix :=
  Relinked.trans (n := m.unlinkConstraint c) ⟨rfl, rfl, rfl⟩
    (Relinked.foldl relinked_hideRow (m.column c) _)

theorem relinked_uncover (m : Matrix P) (c : ConstraintId) : Relinked m (m.uncover c).matrix :=
  (Relinked.foldl relinked_showRow (m.columnUpward c) m).trans ⟨rfl, rfl, rfl⟩

theorem relinked_sequence {f : Matrix P → ConstraintId → Effect P}
    (hf : ∀ m c, Relinked m (f m c).matrix) (cs : List ConstraintId) (m : Matrix P) :
    Relinked m (sequence f m cs).matrix := by
  induction cs generalizing m with
  | nil => exact Relinked.refl m
  | cons c cs ih => exact (hf m c).trans (ih (f m c).matrix)

theorem relinked_coverRow (m : Matrix P) (h : CellId) : Relinked m (m.coverRow h).matrix :=
  relinked_sequence relinked_cover _ m

theorem relinked_uncoverRow (m : Matrix P) (h : CellId) : Relinked m (m.uncoverRow h).matrix :=
  relinked_sequence relinked_uncover _ m

theorem relinked_eliminateRow (m : Matrix P) (h : CellId) :
    Relinked m (m.eliminateRow h).matrix :=
  (Relinked.foldl relinked_unlinkCell (h :: m.rightOf h) m).trans ⟨rfl, rfl, rfl⟩

theorem relinked_restoreRow (m : Matrix P) (h : CellId) : Relinked m (m.restoreRow h).matrix :=
  Relinked.trans (n := m.relinkCandidate (m.candidateOf h)) ⟨rfl, rfl, rfl⟩
    (Relinked.foldl relinked_relinkCell (m.leftOf h ++ [h]) _)

end Matrix

end ExactCover
