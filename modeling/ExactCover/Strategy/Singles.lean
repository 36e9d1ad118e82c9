/-
ExactCover.Strategy.Singles — a constraint with a single candidate left.

Every solution satisfies the constraint, and only this candidate can.
-/
import ExactCover.Strategy.Elimination

namespace ExactCover.Strategy

variable {P : Type}

/-- The first active constraint with one candidate, which solves that candidate. -/
def findSingle (m : Matrix P) : Option Deduction :=
  match m.activeConstraints.find? fun c => m.len c == 1 with
  | none => none
  | some c =>
    match m.column c with
    | [] => none
    | h :: _ =>
      some {
        strategy := .singles
        pattern := .single c
        actions := [.solve h]
        description :=
          s!"{m.nameAt h} is the only candidate left in {m.constraintName c}" }

end ExactCover.Strategy
