/-
ExactCover.Proofs.Sudoku.Bounds — how large a search for the solutions of a sudoku can be.

A matrix is `Continued` from another one if it came from it by hints, eliminations and
deductions. None of these changes the board, so what a constraint was satisfied by at
first is all that can ever satisfy it: nine placements, told apart by what it leaves open
(`slot`). And every placement satisfies four constraints that are still to be satisfied.
So whatever has been done to a puzzle, a search has at most nine ways to branch and goes
no deeper than the 81 levels it takes to use up 324 constraints (`shrinks_by_four`,
`search_fits_board`).
-/
import ExactCover.Proofs.Applicability
import ExactCover.Proofs.Costs
import ExactCover.Proofs.Sudoku.Solutions

namespace ExactCover

/-! ## Whatever is done before a search -/

section Continued

variable {P : Type} {m₀ m n : Matrix P} {strategies : List Strategy}

/-- What a matrix can become by hints, eliminations and deductions. -/
inductive Continued (m₀ : Matrix P) : Matrix P → Prop
  | start : Continued m₀ m₀
  | hint {m n : Matrix P} {name : String} {changes : List Change} :
      Continued m₀ m → m.addHint name = .ok (n, changes) → Continued m₀ n
  | eliminateCandidate {m n : Matrix P} {name : String} {changes : List Change} :
      Continued m₀ m → m.eliminateCandidate name = .ok (n, changes) → Continued m₀ n
  | apply {m : Matrix P} {d : Deduction} :
      Continued m₀ m → d.Applicable m → Continued m₀ (d.apply m).1

/-- The board stays what it was. -/
theorem Continued.keeps (h : Continued m₀ m) (hm : m₀.Coherent) :
    m.Coherent ∧ m.board = m₀.board := by
  induction h with
  | start => exact ⟨hm, rfl⟩
  | hint _ hok ih =>
    obtain ⟨hbefore, hboard⟩ := ih
    obtain ⟨r, ha, rfl⟩ := Matrix.addHint_ok hbefore hok
    exact ⟨(hbefore.place ha).of_links rfl rfl, (Matrix.relinked_place _ _).board.trans hboard⟩
  | eliminateCandidate _ hok ih =>
    obtain ⟨hbefore, hboard⟩ := ih
    rcases Matrix.eliminateCandidate_ok hbefore hok with ⟨rfl, -⟩ | ⟨r, ha, -, rfl, -⟩
    · exact ⟨hbefore, hboard⟩
    · exact ⟨hbefore.eliminateRow ha, (Matrix.relinked_eliminateRow _ _).board.trans hboard⟩
  | apply _ hd ih =>
    obtain ⟨hbefore, hboard⟩ := ih
    exact ⟨Deduction.coherent_apply hbefore hd,
      (Action.removes_applyAll hbefore hd).board.trans hboard⟩

/-- A run of the solver is a number of deductions. -/
theorem Continued.ran (h : Continued m₀ m) (hm : m₀.Coherent) {k : Nat} {out : Matrix P × Report}
    (hr : Solver.Ran strategies k m out) : Continued m₀ out.1 := by
  induction hr with
  | blocked _ => exact h
  | solved _ => exact h
  | stuck _ => exact h
  | spent _ _ => exact h
  | apply hstep _ ih => exact ih (h.apply (Solver.step_applicable (h.keeps hm).1 hstep))

theorem Continued.solve (h : Continued m₀ m) (hm : m₀.Coherent) {report : Report}
    (hok : Solver.solve strategies m = .ok (n, report)) : Continued m₀ n :=
  h.ran hm (Solver.solve_ran hok)

end Continued

namespace Sudoku

/-! ## Nine ways to satisfy a constraint -/

section Slots

variable {p q : Placement} {c : Nat}

/-- What a constraint leaves open of a placement: the digit of a cell, or the place of a digit in a
row, a column or a box. -/
def slot (c : Nat) (p : Placement) : Nat :=
  if c ≤ 81 then p.digit - 1
  else if c ≤ 162 then p.col
  else if c ≤ 243 then p.row
  else p.row % 3 * 3 + p.col % 3

theorem Placement.OnBoard.slot_lt (hp : p.OnBoard) : slot c p < 9 := by
  obtain ⟨hrow, hcol, hpos, hdigit⟩ := hp
  unfold slot
  split_ifs <;> omega

/-- The constraint and the slot determine the placement. -/
theorem Placement.OnBoard.eq_of_slot (hp : p.OnBoard) (hq : q.OnBoard)
    (hpc : c ∈ p.constraintNumbers) (hqc : c ∈ q.constraintNumbers)
    (hslot : slot c p = slot c q) : p = q := by
  have hpbox := hp.box_eq
  have hqbox := hq.box_eq
  obtain ⟨prow, pcol, pdigit⟩ := p
  obtain ⟨qrow, qcol, qdigit⟩ := q
  obtain ⟨hrow, hcol, hpos, hdigit⟩ := hp
  obtain ⟨hrow', hcol', hpos', hdigit'⟩ := hq
  simp only [constraintNumbers, List.mem_cons, List.not_mem_nil, or_false] at hpc hqc
  simp only [Placement.mk.injEq]
  unfold slot at hslot
  -- a case for each block of 81 constraints: the number and the slot make up the placement
  split_ifs at hslot <;> simp only at * <;> omega

end Slots

/-! ## A search of the board -/

section Searches

variable {m : Matrix Placement}

/-- A constraint of the board has nine candidates at most. -/
theorem len_le_nine (hm : m.Coherent) (hb : m.board = board.board) {c : ConstraintId}
    (hc : c ∈ m.activeConstraints) : m.len c ≤ 9 := by
  obtain ⟨hcon, -, hu⟩ := hm.mem_activeConstraints.mp hc
  have hencodes := encodes_of_board hb
  have hfacts : ∀ r ∈ (m.column c).map m.candidateOf,
      (placementAt r).OnBoard ∧ c ∈ (placementAt r).constraintNumbers ∧
        (placementAt r).number = r := by
    intro r hr
    obtain ⟨ha, hhits⟩ := (hm.mem_column_candidates hcon hu).mp hr
    have hhas := hm.hasCandidate ha
    have hbounds := (hencodes.hasCandidate r).mp hhas
    exact ⟨onBoard_placementAt hbounds, (hencodes.hits r hhas c).mp hhits,
      number_placementAt hbounds⟩
  have hinjective : ∀ q ∈ (m.column c).map m.candidateOf, ∀ r ∈ (m.column c).map m.candidateOf,
      slot c (placementAt q) = slot c (placementAt r) → q = r := by
    intro q hq r hr hslot
    obtain ⟨hqboard, hqc, hqnumber⟩ := hfacts q hq
    obtain ⟨hrboard, hrc, hrnumber⟩ := hfacts r hr
    rw [← hqnumber, ← hrnumber, hqboard.eq_of_slot hrboard hqc hrc hslot]
  have hnodup := (hm.column_candidates_nodup hcon).map_on hinjective
  have hslots : ∀ i ∈ ((m.column c).map m.candidateOf).map fun r => slot c (placementAt r),
      i ∈ List.range 9 := by
    intro i hi
    obtain ⟨r, hr, rfl⟩ := List.mem_map.mp hi
    exact List.mem_range.mpr (hfacts r hr).1.slot_lt
  have hlength := (List.subperm_of_subset hnodup hslots).length_le
  rw [List.length_map, List.length_map, List.length_range] at hlength
  rwa [hm.len_eq hcon]

theorem shrinks_by_four : Search.Shrinks (fun n => n.Coherent ∧ n.board = board.board) 4 9 where
  pos := by decide
  coherent := fun _ hn => hn.1
  narrow := fun _ _ hn hc => len_le_nine hn.1 hn.2 hc
  chosen := fun _ _ _ hn hc hx => chosen_of_board hn.1 hn.2 hc hx

theorem search_fits_board {σ : Type} (hm : m.Coherent) (hb : m.board = board.board)
    (limits : SearchLimits) (v : Visitor Placement σ) (stats : Statistics) (state : σ) :
    Search.FitsTree 81 9 limits stats (Search.search limits v m stats state) := by
  have hconstraints := hm.activeConstraintCount_le
  rw [(encodes_of_board hb).constraintCount] at hconstraints
  exact Search.search_fits_of shrinks_by_four ⟨hm, hb⟩ hconstraints limits v stats state

/-- No search goes deeper than there are active constraints or branches wider than there are active
candidates, and it hits no ceiling above these. In a sudoku there is no level beyond 81 and no
constraint with more than nine candidates, whatever has been done to the puzzle, so counting and
solving with the default ceilings give an answer. -/
theorem searches_fit :
    (∀ {P σ : Type} {m : Matrix P}, Prepared m →
      ∀ (limits : SearchLimits) (v : Visitor P σ) (stats : Statistics) (state : σ),
        Search.FitsTree m.activeConstraintCount m.activeCandidateCount limits stats
          (Search.search limits v m stats state)) ∧
    ∀ {text : String} {p : Puzzle} {m : Matrix Placement}, Puzzle.parse text = .ok p →
      Continued p.matrix m →
      (∀ {σ : Type} (limits : SearchLimits) (v : Visitor Placement σ) (stats : Statistics)
        (state : σ), Search.FitsTree 81 9 limits stats (Search.search limits v m stats state)) ∧
      (∀ limit, ∃ count, (Puzzle.countAtMost ⟨m⟩ limit).2 = .ok count) ∧
      (∃ answer, (Puzzle.solveOne ⟨m⟩).2 = .ok answer) ∧
      ∃ answer, (Puzzle.solveUnique ⟨m⟩).2 = .ok answer := by
  constructor
  · intro P σ m h limits v stats state
    exact Search.search_fits h.coherent limits v stats state
  · intro text p m hparse h
    obtain ⟨hplayable, -⟩ := parse_playable hparse
    obtain ⟨hm, hboard⟩ := h.keeps hplayable.coherent
    have hb : m.board = board.board := hboard.trans hplayable.board_eq
    have hsome : 0 < m.constraintCount := by
      rw [(encodes_of_board hb).constraintCount]
      decide
    have hrun := runsOut hm hb
    refine ⟨search_fits_board hm hb, fun limit => ?_, ?_, ?_⟩
    · exact ⟨_, by rw [Puzzle.countAtMost, Search.countSolutions_eq hm hsome hrun]⟩
    · exact ⟨_, by rw [Puzzle.solveOne, Search.solveOne_eq hm hsome hrun]; rfl⟩
    · exact ⟨_, by rw [Puzzle.solveUnique, Search.solveAtMost_eq hm hsome hrun]; rfl⟩

theorem searches_fit_shifted :
    (Search.search { maxDepth := 1000000, maxBranching := 1000000 } Search.counter Matrix.sample
        {} 0).1.stats.maxDepth ≤ 2 ∧
      ∃ p, Puzzle.parse shiftedText = .ok p ∧ ∃ q report, p.solveLogically {} = .ok (q, report) ∧
        (Search.search {} Search.counter q.matrix {} 0).1.stats.maxDepth ≤ 81 ∧
        (∃ count, (q.countAtMost 5).2 = .ok count) ∧ (∃ answer, q.solveOne.2 = .ok answer) ∧
        ∃ answer, q.solveUnique.2 = .ok answer := by
  obtain ⟨hall, hsudoku⟩ := searches_fit
  refine ⟨?_, ?_⟩
  · exact (hall (.built Matrix.built_sample) _ _ {} 0).maxDepth
  · obtain ⟨p, hp⟩ := exists_parse_shiftedText
    obtain ⟨hplayable, -⟩ := parse_playable hp
    obtain ⟨q, report, hsolve⟩ : ∃ n report,
        Solver.solve (SolverConfig.effective {}) p.matrix = .ok (n, report) :=
      ⟨_, _, if_neg (Nat.ne_of_gt hplayable.constraintCount_pos)⟩
    have hq : Continued p.matrix q := Continued.start.solve hplayable.coherent hsolve
    obtain ⟨hfits, hcount, hone, hunique⟩ := hsudoku hp hq
    have hlogical : p.solveLogically {} = .ok (⟨q⟩, report) := by
      rw [Puzzle.solveLogically, hsolve]
      rfl
    exact ⟨p, hp, ⟨q⟩, report, hlogical, (hfits {} Search.counter {} 0).maxDepth, hcount 5, hone,
      hunique⟩

end Searches

end Sudoku

end ExactCover
