/-
ExactCover.Search.Solutions — counting and listing solutions up to a limit.

Each of these runs one search with the default ceilings that ends after `limit`
solutions; with a limit of 0 nothing is searched. The matrix is handed back with
the answer.
-/
import ExactCover.Search.Descent

namespace ExactCover.Search

variable {P : Type}

/-- Counts the solutions it sees. -/
def counter : Visitor P Nat where
  onTry := fun n _ _ _ => n
  onSolution := fun n _ => (n + 1, true)

/-- Lists the candidates of the solutions it sees. -/
def collector : Visitor P (Array (List CandidateId)) where
  onTry := fun found _ _ _ => found
  onSolution := fun found m => (found.push m.solutionCandidates, true)

/-- The state of the visitor after a search up to `limit` solutions. -/
def watch {σ : Type} (v : Visitor P σ) (start : σ) (m : Matrix P) (limit : Nat) :
    Matrix P × Except SearchError σ :=
  if limit = 0 then (m, .ok start)
  else
    match search (.solutions limit) v m {} start with
    | (d, .failed e) => (d.matrix, .error e)
    | (d, _) => (d.matrix, .ok d.state)

/-- The number of solutions, or `limit` if there are more. -/
def countSolutions (m : Matrix P) (limit : Nat) : Matrix P × Except SearchError Nat :=
  watch counter 0 m limit

/-- The first `limit` solutions, each as the list of its candidates, fixed and chosen. -/
def solveAtMost (m : Matrix P) (limit : Nat) :
    Matrix P × Except SearchError (List (List CandidateId)) :=
  match watch collector #[] m limit with
  | (m, answer) => (m, answer.map Array.toList)

/-- The first solution, if there is one. -/
def solveOne (m : Matrix P) : Matrix P × Except SearchError (Option (List CandidateId)) :=
  match solveAtMost m 1 with
  | (m, answer) => (m, answer.map List.getLast?)

/-- The lines of the log for a search up to `limit` solutions. -/
def logAtMost (m : Matrix P) (limit : Nat) : List Log.Entry :=
  if limit = 0 then []
  else (search (.solutions limit) counter.logged m {} (0, #[])).1.state.2.toList

end ExactCover.Search
