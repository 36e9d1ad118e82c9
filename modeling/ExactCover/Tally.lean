/-
ExactCover.Tally — counts that step by one and are shown as a machine word.

The matrix keeps how many candidates a constraint has left, and how many
constraints and candidates are active, by adding and taking away one at a time.
Stepping down undoes stepping up from every value. On a matrix whose constraints
are covered once each a tally never goes below zero; if one does, it is shown as
the 64-bit word that many steps below zero.
-/

namespace ExactCover

/-- A count that is only ever stepped. -/
structure Tally where
  /-- Steps up less steps down. -/
  balance : Int
  deriving DecidableEq, Repr, Inhabited

namespace Tally

/-- The tally of nothing. -/
def zero : Tally := ⟨0⟩

/-- One more. -/
def up (t : Tally) : Tally := ⟨t.balance + 1⟩

/-- One less. -/
def down (t : Tally) : Tally := ⟨t.balance - 1⟩

/-- The count as it is shown: below zero it wraps round in 64 bits. -/
def count (t : Tally) : Nat :=
  if 0 ≤ t.balance then t.balance.toNat else (t.balance + UInt64.size).toNat

@[simp] theorem down_up (t : Tally) : t.up.down = t := by
  cases t; simp only [up, down, mk.injEq]; omega

@[simp] theorem up_down (t : Tally) : t.down.up = t := by
  cases t; simp only [up, down, mk.injEq]; omega

@[simp] theorem count_ofNat (n : Nat) : (Tally.mk n).count = n := by
  simp [count]

end Tally

end ExactCover
