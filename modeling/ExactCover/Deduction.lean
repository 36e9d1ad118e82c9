/-
ExactCover.Deduction — a step of logical solving, applied and undone.

A deduction says what was seen (`Pattern`), what follows from it (`Action`s, in
order) and why (`description`). `apply` performs the actions and reports every
candidate they touch; `undo`, called when every later deduction has been undone,
takes the actions back last first, and with them every link of the matrix.
-/
import ExactCover.Matrix.Hint
import ExactCover.Strategy.Basic

namespace ExactCover

/-- What follows from a deduction for one candidate, addressed by a cell. -/
inductive Action where
  /-- The candidate is part of the solution. -/
  | solve (h : CellId)
  /-- The candidate cannot be part of the solution. -/
  | eliminate (h : CellId)
  deriving DecidableEq, Repr

/-- The cell of the candidate that an action is about. -/
def Action.cell : Action → CellId
  | solve h | eliminate h => h

/-- What a strategy saw in the matrix. -/
inductive Pattern where
  /-- Only one candidate is left in the constraint. -/
  | single (constraint : ConstraintId)
  /-- All candidates of `subset` are candidates of `superset`. -/
  | lockedSet (subset superset : ConstraintId)
  /-- Two constraints whose cells exclude each other in two matched pairs. -/
  | pair (constraints : ConstraintId × ConstraintId) (matched : CellPair × CellPair)
  /-- Three constraints whose cells stand in three lines; a line may lack a cell. -/
  | triple (constraints : List ConstraintId) (lines : List (List (Option CellId)))
  /-- A hinge that forces one of the two pincers. -/
  | wing (hinge : ConstraintId) (wings : ConstraintId × ConstraintId) (pincers : CellPair)
  /-- Three corners and a fourth constraint whose two extra cells complete the rectangle. -/
  | rectangle (corners : List ConstraintId) (fourth : ConstraintId) (extra : CellPair)
  deriving DecidableEq, Repr

/-- A step of logical solving. -/
structure Deduction where
  strategy : Strategy
  pattern : Pattern
  actions : List Action
  description : String
  deriving DecidableEq, Repr

/-- Performs one action. -/
def Action.apply {P : Type} (m : Matrix P) : Action → Matrix P × List Change
  | .solve h =>
    let r := m.candidateOf h
    match m.place h with
    | ⟨m, touched, _⟩ =>
      (m.pushSolution h, .solved r :: (touched.filter (· != r)).map .removed)
  | .eliminate h =>
    let r := m.candidateOf h
    ((m.eliminateRow h).matrix, [.removed r])

/-- Takes one action back. -/
def Action.undo {P : Type} (m : Matrix P) : Action → Matrix P × List Change
  | .solve h =>
    let r := m.candidateOf h
    match m.popSolution.unplace h with
    | ⟨m, touched, _⟩ => (m, (touched.filter (· != r)).map .added ++ [.unsolved r])
  | .eliminate h =>
    let r := m.candidateOf h
    ((m.restoreRow h).matrix, [.added r])

/-- Runs one reporting step after another and joins the reports. -/
def runChanges {P α : Type} (f : Matrix P → α → Matrix P × List Change) (m : Matrix P) :
    List α → Matrix P × List Change
  | [] => (m, [])
  | a :: as =>
    match f m a with
    | (m, changes) =>
      match runChanges f m as with
      | (m, rest) => (m, changes ++ rest)

namespace Deduction

variable {P : Type}

/-- Performs all actions and reports every candidate they touch. -/
def apply (d : Deduction) (m : Matrix P) : Matrix P × List Change :=
  runChanges Action.apply m d.actions

/-- Takes all actions back, last first. -/
def undo (d : Deduction) (m : Matrix P) : Matrix P × List Change :=
  runChanges Action.undo m d.actions.reverse

/-- The cells of the eliminated candidates. -/
def eliminations (d : Deduction) : List CellId :=
  d.actions.filterMap fun
    | .eliminate h => some h
    | .solve _ => none

end Deduction

end ExactCover
