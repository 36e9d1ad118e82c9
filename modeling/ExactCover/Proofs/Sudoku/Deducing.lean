/-
ExactCover.Proofs.Sudoku.Deducing — a puzzle with one solution keeps it when deductions are made.

In a playable matrix all candidates have four constraints. If it has one solution only,
what any strategy sees is therefore justified, also where a strategy relies on there being
no other one (`Strategy.find_justified_of_determined`), and it leaves the matrix playable
with the same solution (`Playable.apply`). So a run never comes to a matrix that cannot
be solved, and where it ends the solution is what it was.
-/
import ExactCover.Proofs.Rectangles
import ExactCover.Proofs.SolverRuns
import ExactCover.Proofs.Sudoku.Solutions

namespace ExactCover.Sudoku

variable {m : Matrix Placement} {g : Grid}

namespace Playable

theorem regular (h : Playable m) : m.Regular :=
  h.coherent.regular (n := 4) fun _ hr => h.encodes.length_row h.coherent.laid
    (h.coherent.hasCandidate (h.coherent.mem_activeCandidates.mp hr))

/-- A justified deduction leaves a playable matrix. -/
theorem apply (h : Playable m) {d : Deduction} (hd : m.Justified d.actions) :
    Playable (d.apply m).1 := by
  have hm := h.coherent
  have hallowed := hd.allAllowed hm
  refine ⟨Deduction.coherent_apply hm hallowed, Action.accounted_applyAll hm hallowed h.accounted,
    (Action.removes_applyAll hm hallowed).board.trans h.board_eq, fun F hF => ?_⟩
  exact h.fullSolution F ((hd.fullSolution_iff hm).mp hF)

end Playable

/-- A playable matrix whose only solution is the grid. -/
structure HasUnique (m : Matrix Placement) (g : Grid) : Prop extends Playable m where
  fullSolution_iff : ∀ F, m.FullSolution F ↔ F = g.numbers

namespace HasUnique

/-- One cover at most is left to be found. -/
theorem determined (h : HasUnique m g) : m.Determined := by
  intro S T hS hT
  refine h.accounted.eq_of_union h.coherent hS hT ?_
  rw [(h.fullSolution_iff _).mp ⟨S, hS, rfl⟩, (h.fullSolution_iff _).mp ⟨T, hT, rfl⟩]

/-- What any strategy sees is justified, and when it is applied the grid is still the only
solution. -/
theorem step (h : HasUnique m g) {strategies : List Strategy} {d : Deduction}
    (hstep : Solver.step strategies m = some d) :
    m.Justified d.actions ∧ HasUnique (d.apply m).1 g := by
  obtain ⟨s, -, hfind⟩ := List.exists_of_findSome?_eq_some hstep
  have hd := Strategy.find_justified_of_determined h.coherent h.encodes.fits
    h.toPlayable.regular h.determined hfind
  exact ⟨hd, h.toPlayable.apply hd, fun F =>
    (hd.fullSolution_iff h.coherent).trans (h.fullSolution_iff F)⟩

/-- A run is sound, and at its end the grid is still the only solution. -/
theorem solve (h : HasUnique m g) (strategies : List Strategy) :
    ∃ n report, Solver.solve strategies m = .ok (n, report) ∧
      Solver.Sound strategies m (n, report) ∧ HasUnique n g := by
  obtain ⟨hsound, hlast⟩ := Solver.run_sound_of (Q := fun n => HasUnique n g)
    (fun n hn => hn.coherent) (fun n d hn (hstep : Solver.step strategies n = some d) =>
      hn.step hstep) h (Nat.le_refl m.activeCandidateCount)
  refine ⟨_, _, ?_, hsound, hlast⟩
  rw [Solver.solve, if_neg (Nat.ne_of_gt h.constraintCount_pos)]

/-- A matrix with a solution is not blocked. -/
theorem not_blocked (h : HasUnique m g) : m.isBlocked ≠ true := fun hblocked =>
  h.coherent.not_fullSolution_of_isBlocked hblocked g.numbers ((h.fullSolution_iff _).mpr rfl)

/-- A placement of the grid has been placed or is still possible. -/
theorem placed_or_active (h : HasUnique m g) {p : Placement} (hp : g.Has p) :
    p.number ∈ m.solutionCandidates ∨ p.number ∈ m.activeCandidates := by
  obtain ⟨S, hS, heq⟩ := (h.fullSolution_iff g.numbers).mpr rfl
  have hmem := (Grid.number_mem_numbers hp.1).mpr hp
  rw [heq, Finset.mem_union, List.mem_toFinset] at hmem
  exact hmem.imp_right (hS.active p.number)

/-- What has been placed when everything is satisfied is the grid. -/
theorem grid_eq (h : HasUnique m g) (hsolved : m.isSolved = true) : Puzzle.grid ⟨m⟩ = g := by
  have hplaced := (h.coherent.fullSolution_of_isSolved hsolved _).mpr rfl
  have hnumbers : (Puzzle.grid ⟨m⟩).numbers = m.solutionCandidates.toFinset :=
    h.numbers_gridOf hplaced
  refine h.eq_of_numbers (hnumbers.symm ▸ hplaced) ?_
  rw [hnumbers]
  exact (h.fullSolution_iff _).mp hplaced

theorem solveUnique_eq (h : HasUnique m g) : (Puzzle.solveUnique ⟨m⟩).2 = .ok (some g) :=
  (h.toPlayable.solveUnique_some_iff g).mpr (h.grids_eq_singleton_iff.mpr h.fullSolution_iff)

end HasUnique

/-- Whatever strategies are used, a puzzle that is read from a text and has one solution keeps it.
The run is not blocked, every placement of the solution has been placed or is still possible, the
solution is still the only one, and it is the grid when everything is satisfied. -/
theorem Puzzle.solveLogically_keeps {text : String} {p : Puzzle} {g : Grid}
    (h : Puzzle.parse text = .ok p) (hone : p.solveUnique.2 = .ok (some g))
    (config : SolverConfig) :
    ∃ q report, p.solveLogically config = .ok (q, report) ∧ report.outcome ≠ .blocked ∧
      (∀ a, g.Has a → ∃ r, q.matrix.candidateByName? a.name = some r ∧
        (r ∈ q.matrix.solutionCandidates ∨ r ∈ q.matrix.activeCandidates)) ∧
      (∀ F, q.matrix.FullSolution F ↔ F = g.numbers) ∧ q.solveUnique.2 = .ok (some g) ∧
      (report.outcome = .solved → q.grid = g) := by
  obtain ⟨hplayable, -⟩ := parse_playable h
  have hstart : HasUnique p.matrix g := ⟨hplayable,
    hplayable.grids_eq_singleton_iff.mp ((hplayable.solveUnique_some_iff g).mp hone)⟩
  obtain ⟨n, report, hsolve, hsound, hend⟩ := hstart.solve config.effective
  refine ⟨⟨n⟩, report, ?_, fun hblocked => ?_, fun a ha => ?_, hend.fullSolution_iff,
    hend.solveUnique_eq, fun hsolved => hend.grid_eq (hsound.solved hsolved)⟩
  · rw [Puzzle.solveLogically, hsolve]
    rfl
  · exact hend.not_blocked (hsound.blocked hblocked)
  · exact ⟨a.number, hend.encodes.candidateByName?_name ha.1, hend.placed_or_active ha⟩

theorem Puzzle.solveLogically_keeps_shifted : ∃ p, Puzzle.parse shiftedText = .ok p ∧
    p.solveUnique.2 = .ok (some shiftedGrid) ∧ ∀ config, ∃ q report,
      p.solveLogically config = .ok (q, report) ∧ report.outcome ≠ .blocked ∧
        q.solveUnique.2 = .ok (some shiftedGrid) ∧
        (report.outcome = .solved → q.grid = shiftedGrid) := by
  obtain ⟨p, hp⟩ := exists_parse_shiftedText
  obtain ⟨hplayable, -⟩ := parse_playable hp
  have hone : p.solveUnique.2 = .ok (some shiftedGrid) :=
    (hplayable.solveUnique_some_iff shiftedGrid).mpr
      ((solutions_eq_singleton_iff hp).mp solutions_shiftedText)
  refine ⟨p, hp, hone, fun config => ?_⟩
  obtain ⟨q, report, hsolve, hblocked, -, -, hunique, hsolved⟩ :=
    Puzzle.solveLogically_keeps hp hone config
  exact ⟨q, report, hsolve, hblocked, hunique, hsolved⟩

end ExactCover.Sudoku
