/-
ExactCover.Proofs.PlainSearch — the search for exact covers on plain lists.

A `Problem` lists the primary constraints that are open and the rows that are left, both
in ascending order. Nothing of it is ever linked, unlinked or put back: to choose a row
is to go on with a smaller problem, without the row's constraints and without every row
that satisfies one of them, and the problem itself is still there for the next row.
`Problem.descend` is the recursion on such problems, with the ceilings and the
statistics of a search, and is shown the places of the cells that it has chosen.

What a choice costs is counted as for a matrix that takes out its constraints one after
another. The order in which it does makes no difference (`coverCosts_perm`), because
every row goes with the first of its constraints, whichever that is.
-/
import ExactCover.Proofs.SearchRuns

namespace ExactCover

/-- A candidate and the constraints that it satisfies, in ascending order. -/
structure Row where
  candidate : CandidateId
  constraints : List ConstraintId
  deriving DecidableEq, Repr

/-- What is left of an exact cover problem. -/
structure Problem where
  /-- How many constraints it was posed with. -/
  size : Nat
  /-- The primary constraints that are not satisfied yet, in ascending order. -/
  constraints : List ConstraintId
  /-- The candidates that are still possible, in ascending order. -/
  rows : List Row
  deriving DecidableEq, Repr

/-- What a search has come to, its matrix apart. -/
structure Progress (σ : Type) where
  stats : Statistics
  /-- How many solutions it has reported. -/
  found : Nat
  /-- The state of its callback. -/
  state : σ

/-- How many cells some rows have besides one each. -/
def Row.others (rows : List Row) : Nat :=
  (rows.map fun row => row.constraints.length - 1).foldr (· + ·) 0

namespace Problem

/-- The rows left that satisfy a constraint. -/
def rowsOf (p : Problem) (c : ConstraintId) : List Row :=
  p.rows.filter fun row => c ∈ row.constraints

/-- How many ways are left to satisfy a constraint. -/
def degree (p : Problem) (c : ConstraintId) : Nat := (p.rowsOf c).length

/-- The constraint with the fewest rows left, the first of them if there are several. -/
def shortest? (p : Problem) : Option ConstraintId :=
  p.constraints.find? fun c => p.constraints.all fun d => p.degree c ≤ p.degree d

/-- Drops some constraints and every row that satisfies one of them. -/
def without (p : Problem) (cs : List ConstraintId) : Problem :=
  { p with
    constraints := p.constraints.filter fun c => c ∉ cs
    rows := p.rows.filter fun row => ∀ c ∈ row.constraints, c ∉ cs }

/-- What it costs to cover a constraint: 1, and for every row left in it the row's other
constraints. -/
def coverCost (p : Problem) (c : ConstraintId) : Nat := 1 + Row.others (p.rowsOf c)

/-- What it costs to cover constraints one after another. -/
def coverCosts (p : Problem) : List ConstraintId → Nat
  | [] => 0
  | c :: cs => p.coverCost c + (p.without [c]).coverCosts cs

/-! ## The recursion -/

section Search

variable {σ : Type}

/-- Shows a solution to the callback. -/
def report (limits : SearchLimits) (k : σ → List Cell → σ × Bool) (cells : List Cell)
    (r : Progress σ) : Progress σ × Ending :=
  match k r.state cells with
  | (state, goOn) =>
    (⟨r.stats.recordSolution, r.found + 1, state⟩,
      if goOn && Search.goesOn limits (r.found + 1) then .exhausted else .stopped)

/-- Tries one row after another until a search below one of them does not run to its end. -/
def tryEach {α : Type} (below : α → Progress σ → Progress σ × Ending) :
    List α → Progress σ → Progress σ × Ending
  | [], r => (r, .exhausted)
  | row :: rest, r =>
    match below row r with
    | (r, .exhausted) => tryEach below rest r
    | (r, ending) => (r, ending)

/-- Searches below a node at `level`, after `cells` have been chosen. -/
def descend (limits : SearchLimits) (k : σ → List Cell → σ × Bool) (level : Nat) (p : Problem)
    (cells : List Cell) (r : Progress σ) : Progress σ × Ending :=
  let stats := r.stats.recordNode level
  match p.shortest? with
  | none => report limits k cells { r with stats }
  | some c =>
    let degree := p.degree c
    if degree = 0 then ({ r with stats }, .exhausted)
    else if limits.maxDepth ≤ level then
      ({ r with stats }, .failed (.depthLimit limits.maxDepth))
    else if limits.maxBranching < degree then
      ({ r with stats }, .failed (.branchLimit level degree limits.maxBranching))
    else
      let stats := (stats.recordBranch level degree).recordUpdates level (p.coverCost c)
      tryEach
        (fun row r =>
          let others := row.constraints.filter (· ≠ c)
          let stats := r.stats.recordUpdates level ((p.without [c]).coverCosts others)
          descend limits k (level + 1) (p.without row.constraints)
            (cells ++ [⟨c, row.candidate⟩]) { r with stats })
        (p.rowsOf c) { r with stats }
termination_by limits.maxDepth - level

/-- Enumerates the exact covers of a problem, adding what it costs to `stats`. -/
def search (limits : SearchLimits) (k : σ → List Cell → σ × Bool) (p : Problem)
    (stats : Statistics) (state : σ) : Progress σ × Ending :=
  if p.size = 0 then (⟨stats, 0, state⟩, .failed .noConstraints)
  else descend limits k 0 p [] ⟨stats, 0, state⟩

theorem tryEach_map {α β : Type} (f : α → β) (below : β → Progress σ → Progress σ × Ending)
    (xs : List α) (r : Progress σ) :
    tryEach below (xs.map f) r = tryEach (fun x => below (f x)) xs r := by
  induction xs generalizing r with
  | nil => rfl
  | cons x xs ih =>
    simp only [List.map_cons, tryEach, ih]

theorem tryEach_congr {α : Type} {below below' : α → Progress σ → Progress σ × Ending}
    {xs : List α} (h : ∀ x ∈ xs, ∀ r, below x r = below' x r) (r : Progress σ) :
    tryEach below xs r = tryEach below' xs r := by
  induction xs generalizing r with
  | nil => rfl
  | cons x xs ih =>
    have hrest := ih fun y hy => h y (List.mem_cons_of_mem x hy)
    simp only [tryEach, h x List.mem_cons_self, hrest]

end Search

/-! ## The choice of a constraint -/

/-- The constraint is the first that minimizes the number of rows. -/
theorem shortest?_eq_argmin (p : Problem) : p.shortest? = p.constraints.argmin p.degree := by
  cases hmin : p.constraints.argmin p.degree with
  | none =>
    rw [shortest?, List.argmin_eq_none.mp hmin]
    rfl
  | some c =>
    obtain ⟨hc, hleast, hfirst⟩ := List.argmin_eq_some_iff.mp hmin
    obtain ⟨before, after, hsplit, hnew⟩ := List.eq_append_cons_of_mem hc
    refine List.find?_eq_some_iff_append.mpr ⟨?_, before, after, hsplit, fun d hd => ?_⟩
    · simpa using hleast
    · -- an earlier one with as few rows would have been taken
      simp only [Bool.not_eq_true', List.all_eq_false, decide_eq_true_eq]
      refine ⟨c, hc, fun hle => ?_⟩
      have hmem : d ∈ p.constraints := hsplit ▸ List.mem_append_left _ hd
      have hindex := hfirst d hmem hle
      rw [hsplit, List.idxOf_append_of_notMem hnew, List.idxOf_append_of_mem hd] at hindex
      have hlt := List.idxOf_lt_length_of_mem hd
      omega

/-! ## Costs -/

theorem Row.others_cons (row : Row) (rows : List Row) :
    Row.others (row :: rows) = row.constraints.length - 1 + Row.others rows := rfl

/-- Rows of one sort or another are those of the one and those of the other that are not of the
first. -/
theorem others_filter_or (a b : Row → Prop) [DecidablePred a] [DecidablePred b]
    (rows : List Row) :
    Row.others (rows.filter fun row => a row ∨ b row) =
      Row.others (rows.filter a) + Row.others ((rows.filter fun row => ¬ a row).filter b) := by
  induction rows with
  | nil => rfl
  | cons row rows ih =>
    by_cases ha : a row
    · simp only [List.filter_cons, ha, true_or, not_true_eq_false, decide_true, decide_false,
        if_true, Bool.false_eq_true, if_false, Row.others_cons, ih, Nat.add_assoc]
    · by_cases hb : b row
      · simp only [List.filter_cons, ha, hb, false_or, not_false_eq_true, decide_true,
          decide_false, if_true, Bool.false_eq_true, if_false, Row.others_cons, ih]
        omega
      · simp only [List.filter_cons, ha, hb, false_or, not_false_eq_true, decide_true,
          decide_false, if_true, Bool.false_eq_true, if_false, ih]

/-- Covering several constraints costs 1 for each of them, and for every row that satisfies one of
them the row's other constraints. -/
theorem coverCosts_eq (p : Problem) (cs : List ConstraintId) :
    p.coverCosts cs =
      cs.length + Row.others (p.rows.filter fun row => ∃ c ∈ cs, c ∈ row.constraints) := by
  induction cs generalizing p with
  | nil => simp [coverCosts, Row.others]
  | cons c cs ih =>
    have hsplit := others_filter_or (fun row => c ∈ row.constraints)
      (fun row => ∃ d ∈ cs, d ∈ row.constraints) p.rows
    have hrest : (p.without [c]).rows = p.rows.filter fun row => ¬ c ∈ row.constraints := by
      refine List.filter_congr fun row _ => decide_eq_decide.mpr ?_
      simp only [List.mem_singleton]
      exact ⟨fun h hc => h c hc rfl, fun h d hd e => h (e ▸ hd)⟩
    simp only [coverCosts, coverCost, rowsOf, ih, hrest, List.length_cons, List.mem_cons,
      or_and_right, exists_or, exists_eq_left, hsplit]
    omega

theorem coverCosts_perm (p : Problem) {cs ds : List ConstraintId} (h : cs.Perm ds) :
    p.coverCosts cs = p.coverCosts ds := by
  simp only [coverCosts_eq, h.length_eq, h.mem_iff]

end Problem

end ExactCover
