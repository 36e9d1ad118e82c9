/-
ExactCover.Matrix.Relation — how sets of candidates and sets of constraints relate.

A constraint stands for the candidates left in it, a candidate for the
constraints it satisfies. Both come as lists in ascending ordinal, so one pass
over two lists, `joinOn`, tells for every entry of the first whether the second
has an entry of the same ordinal. Each relation below reads its answer off that
pass: inclusion, difference, intersection, and conflict, which is to have a
constraint in common.
-/
import ExactCover.Matrix.Basic

namespace ExactCover

/-- Pairs every entry of the left list with whether the right list has its key. Both lists are
ascending in their keys, so the right list never has to be gone back in. -/
@[specialize] def joinOn {α β : Type} (key : α → UInt32) (key' : β → UInt32) :
    List α → List β → List (α × Bool)
  | [], _ => []
  | a :: as, bs =>
    let rest := bs.dropWhile fun b => key' b < key a
    let found := match rest with
      | b :: _ => key' b == key a
      | [] => false
    (a, found) :: joinOn key key' as rest

/-- Some entry of the left list has a key that the right list has too. -/
@[specialize] def meetsOn {α β : Type} (key : α → UInt32) (key' : β → UInt32) :
    List α → List β → Bool
  | [], _ => false
  | a :: as, bs =>
    match bs.dropWhile fun b => key' b < key a with
    | [] => false
    | b :: rest => key' b == key a || meetsOn key key' as (b :: rest)

/-- Without right entries nothing is found. -/
theorem any_joinOn_nil {α β : Type} (key : α → UInt32) (key' : β → UInt32) (as : List α) :
    (joinOn key key' as []).any (·.2) = false := by
  induction as with
  | nil => rfl
  | cons a as ih => simpa [joinOn] using ih

/-- The lists meet if the pass over them finds an entry. -/
theorem meetsOn_eq_any_joinOn {α β : Type} (key : α → UInt32) (key' : β → UInt32)
    (as : List α) (bs : List β) :
    meetsOn key key' as bs = (joinOn key key' as bs).any (·.2) := by
  induction as generalizing bs with
  | nil => rfl
  | cons a as ih =>
    unfold meetsOn joinOn
    split
    · rename_i h
      simpa [h] using (any_joinOn_nil key key' as).symm
    · rename_i b rest h
      simp [h, ih]

namespace Matrix

variable {P : Type}

/-- The ordinal of a cell's candidate. -/
def candidateKey (m : Matrix P) (h : CellId) : UInt32 := ordinal (m.candidateOf h)

/-- The ordinal of a cell's constraint. -/
def constraintKey (m : Matrix P) (h : CellId) : UInt32 := ordinal (m.constraintOf h)

/-! ## Constraints as sets of candidates -/

/-- Every cell of `a`, with whether its candidate is in `b` too. -/
def joinColumns (m : Matrix P) (a b : ConstraintId) : List (CellId × Bool) :=
  joinOn m.candidateKey m.candidateKey (m.column a) (m.column b)

/-- Every candidate of `a` is a candidate of `b`. -/
def isSubsetOf (m : Matrix P) (a b : ConstraintId) : Bool :=
  m.len a ≤ m.len b && (m.joinColumns a b).all (·.2)

/-- Every candidate of `a` is a candidate of `b`, which has more of them. -/
def isStrictSubsetOf (m : Matrix P) (a b : ConstraintId) : Bool :=
  m.len a < m.len b && m.isSubsetOf a b

/-- The cells of `a` whose candidates are not in `b`. -/
def minus (m : Matrix P) (a b : ConstraintId) : List CellId :=
  ((m.joinColumns a b).filter fun x => !x.2).map (·.1)

/-- The cells of `a` whose candidates are in `b` too. -/
def sharedCells (m : Matrix P) (a b : ConstraintId) : List CellId :=
  ((m.joinColumns a b).filter (·.2)).map (·.1)

/-- `a` and `b` have a candidate in common. -/
def intersects (m : Matrix P) (a b : ConstraintId) : Bool :=
  meetsOn m.candidateKey m.candidateKey (m.column a) (m.column b)

/-! ## Candidates as sets of constraints -/

/-- Every cell of `x`, with whether `y` satisfies its constraint too. -/
def joinRows (m : Matrix P) (x y : CandidateId) : List (CellId × Bool) :=
  joinOn m.constraintKey m.constraintKey (m.row x) (m.row y)

/-- `x` and `y` satisfy a constraint both, so they cannot both be part of a solution. -/
def conflicts (m : Matrix P) (x y : CandidateId) : Bool :=
  meetsOn m.constraintKey m.constraintKey (m.row x) (m.row y)

/-- The cells of `x` in constraints that `y` satisfies too. -/
def sharedConstraints (m : Matrix P) (x y : CandidateId) : List CellId :=
  ((m.joinRows x y).filter (·.2)).map (·.1)

/-- The cells among `shared` whose constraints every one of `others` satisfies. -/
def retainCommon (m : Matrix P) (shared : List CellId) (others : List CandidateId) : List CellId :=
  others.foldl (fun cells y =>
    ((joinOn m.constraintKey m.constraintKey cells (m.row y)).filter (·.2)).map (·.1)) shared

/-- The cell of `x` in the first constraint that all of `others` satisfy too. -/
def commonConstraint (m : Matrix P) (x : CandidateId) (others : List CandidateId) :
    Option CellId :=
  (m.retainCommon (m.row x) others).head?

/-- The candidates of two cells conflict. -/
def cellsConflict (m : Matrix P) (x y : CellId) : Bool :=
  m.conflicts (m.candidateOf x) (m.candidateOf y)

end Matrix

end ExactCover
