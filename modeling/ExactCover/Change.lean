/-
ExactCover.Change — what happened to candidates.

Whatever moves candidates between possible, ruled out and placed reports one
`Change` for each of them, in the order in which it happens. `Change.undone` is
the change that takes one back. A `Listener` is told of changes one after another
(`dispatch`).
-/
import ExactCover.Matrix.Basic

namespace ExactCover

/-- One step in the life of a candidate. -/
inductive Change where
  /-- It became possible again. -/
  | added (r : CandidateId)
  /-- It was ruled out. -/
  | removed (r : CandidateId)
  /-- It was placed into the solution. -/
  | solved (r : CandidateId)
  /-- It was taken back out of the solution. -/
  | unsolved (r : CandidateId)
  /-- It was fixed before solving. -/
  | hinted (r : CandidateId)
  deriving DecidableEq, Repr

namespace Change

/-- The candidate that changed. -/
def candidate : Change → CandidateId
  | added r | removed r | solved r | unsolved r | hinted r => r

/-- The change that takes one back. -/
def undone : Change → Change
  | added r => removed r
  | removed r => added r
  | solved r => unsolved r
  | unsolved r => solved r
  | hinted r => unsolved r

end Change

/-- Who is told of changes, with a state of type `σ`. By default nothing is done about any. -/
structure Listener (σ : Type) where
  added : σ → CandidateId → σ := fun s _ => s
  removed : σ → CandidateId → σ := fun s _ => s
  solved : σ → CandidateId → σ := fun s _ => s
  unsolved : σ → CandidateId → σ := fun s _ => s
  hinted : σ → CandidateId → σ := fun s _ => s

/-- Tells a listener of a change. -/
def Listener.notify {σ : Type} (l : Listener σ) (s : σ) : Change → σ
  | .added r => l.added s r
  | .removed r => l.removed s r
  | .solved r => l.solved s r
  | .unsolved r => l.unsolved s r
  | .hinted r => l.hinted s r

/-- Tells a listener of every change in order. -/
def dispatch {σ : Type} (changes : List Change) (l : Listener σ) (s : σ) : σ :=
  changes.foldl l.notify s

end ExactCover
