/-
ExactCover.Proofs.SolverRuns — a run of the solver keeps every solution.

Every deduction of a run is justified where it is applied, so the full solutions
stay what they were from the first deduction to the last (`run_sound`, by induction
over the run). At the end they can be read off the outcome: one if everything is
satisfied, none if some constraint is left without a candidate, and those of the
beginning if no strategy sees anything any more.
-/
import ExactCover.Proofs.Applicability

namespace ExactCover

namespace Matrix

variable {P : Type} {m : Matrix P}

/-- When every constraint is satisfied, there is nothing but what has been placed. -/
theorem Coherent.fullSolution_of_isSolved (hm : m.Coherent) (h : m.isSolved = true)
    (F : Finset CandidateId) : m.FullSolution F ↔ F = m.solutionCandidates.toFinset := by
  have hcount : m.activeConstraintCount = 0 := beq_iff_eq.mp h
  rw [hm.activeConstraintCount_eq] at hcount
  have hnone := List.length_eq_zero_iff.mp hcount
  constructor
  · intro h'
    obtain ⟨S, hS, rfl⟩ := h'
    rw [(residualCover_iff_empty hnone).mp hS, Finset.union_empty]
  · rintro rfl
    exact ⟨∅, (residualCover_iff_empty hnone).mpr rfl, (Finset.union_empty _).symm⟩

/-- When a constraint cannot be satisfied any more, there is no solution. -/
theorem Coherent.not_fullSolution_of_isBlocked (hm : m.Coherent) (h : m.isBlocked = true)
    (F : Finset CandidateId) : ¬ m.FullSolution F := by
  intro h'
  obtain ⟨S, hS, -⟩ := h'
  obtain ⟨c, hc, hlen⟩ := List.any_eq_true.mp h
  obtain ⟨x, hx, -⟩ := hm.exists_mem_column hc hS
  rw [beq_iff_eq, hm.len_eq (hm.mem_activeConstraints.mp hc).1] at hlen
  rw [List.length_eq_zero_iff.mp hlen] at hx
  cases hx

/-- As long as a matrix is neither solved nor blocked, it has candidates left. -/
theorem Coherent.activeCandidateCount_pos (hm : m.Coherent) (hb : m.isBlocked ≠ true)
    (hs : m.isSolved ≠ true) : 0 < m.activeCandidateCount := by
  have hcount : m.activeConstraintCount ≠ 0 := fun hzero => hs (beq_iff_eq.mpr hzero)
  rw [hm.activeConstraintCount_eq] at hcount
  obtain ⟨c, hc⟩ := List.exists_mem_of_length_pos (Nat.pos_of_ne_zero hcount)
  have hlen : m.len c ≠ 0 := fun hzero =>
    hb (List.any_eq_true.mpr ⟨c, hc, beq_iff_eq.mpr hzero⟩)
  exact Nat.lt_of_lt_of_le (Nat.pos_of_ne_zero hlen) (hm.len_le_activeCandidateCount hc)

/-- Applies deductions one after another. -/
def applyAll (m : Matrix P) (ds : List Deduction) : Matrix P :=
  ds.foldl (fun m d => (d.apply m).1) m

end Matrix

namespace Solver

variable {P : Type} {m : Matrix P} {strategies : List Strategy}

/-- What a run with some strategies says about the matrix it began with. -/
structure Sound (strategies : List Strategy) (m : Matrix P) (out : Matrix P × Report) :
    Prop where
  coherent : out.1.Coherent
  matrix : out.1 = m.applyAll out.2.deductions
  kept : ∀ ds, ds <+: out.2.deductions → ∀ F,
    (m.applyAll ds).FullSolution F ↔ m.FullSolution F
  solved : out.2.outcome = .solved → out.1.isSolved = true
  blocked : out.2.outcome = .blocked → out.1.isBlocked = true
  stuck : out.2.outcome = .stuck → step strategies out.1 = none

/-- The full solutions at the end are those of the beginning. -/
theorem Sound.fullSolution_iff {out : Matrix P × Report} (h : Sound strategies m out)
    (F : Finset CandidateId) : out.1.FullSolution F ↔ m.FullSolution F := by
  rw [h.matrix]
  exact h.kept _ (List.prefix_refl _) F

/-- A run that ends where it starts is sound if its outcome is right. -/
theorem sound_halt (hm : m.Coherent) {outcome : Outcome}
    (h : match outcome with
      | .solved => m.isSolved = true
      | .blocked => m.isBlocked = true
      | .stuck => step strategies m = none) : Sound strategies m (halt m outcome) := by
  refine ⟨hm, rfl, fun ds hds F => ?_, ?_, ?_, ?_⟩
  · rw [List.prefix_nil.mp hds]
    rfl
  · rintro rfl
    exact h
  · rintro rfl
    exact h
  · rintro rfl
    exact h

theorem step_justified (hs : ∀ s ∈ strategies, s.assumesUnique = false) (hm : m.Coherent)
    (hf : m.Fits) {d : Deduction} (h : step strategies m = some d) : m.Justified d.actions := by
  obtain ⟨s, hmem, hfind⟩ := List.exists_of_findSome?_eq_some h
  exact Strategy.find_justified hm hf (hs s hmem) hfind

/-- One justified deduction before a run that is sound. -/
theorem Sound.cons {d : Deduction} (hm : m.Coherent) (hd : m.Justified d.actions)
    {out : Matrix P × Report} (h : Sound strategies (d.apply m).1 out) (changes : List Change) :
    Sound strategies m
      (out.1, { out.2 with deductions := d :: out.2.deductions, changes := changes }) := by
  refine ⟨h.coherent, h.matrix, fun ds hds F => ?_, h.solved, h.blocked, h.stuck⟩
  cases ds with
  | nil => rfl
  | cons e ds =>
    obtain ⟨rfl, hrest⟩ := List.cons_prefix_cons.mp hds
    exact (h.kept ds hrest F).trans (hd.fullSolution_iff hm)

/-- If what is seen is justified wherever `Q` holds, and `Q` holds after it is applied, a run is
sound when it may have as many deductions as there are active candidates: each of them leaves
fewer, so the bound is never what ends it. -/
theorem run_sound_of {Q : Matrix P → Prop} (hcoherent : ∀ n, Q n → n.Coherent)
    (hstep : ∀ n d, Q n → step strategies n = some d →
      n.Justified d.actions ∧ Q (d.apply n).1) {n : Nat} (hq : Q m)
    (hn : m.activeCandidateCount ≤ n) :
    Sound strategies m (run strategies n m) ∧ Q (run strategies n m).1 := by
  have hran := ran_run strategies n m
  generalize run strategies n m = out at hran ⊢
  induction hran with
  | blocked hblocked => exact ⟨sound_halt (hcoherent _ hq) hblocked, hq⟩
  | solved hsolved => exact ⟨sound_halt (hcoherent _ hq) hsolved, hq⟩
  | stuck hnone => exact ⟨sound_halt (hcoherent _ hq) hnone, hq⟩
  | spent hblocked hsolved =>
    have hpos := (hcoherent _ hq).activeCandidateCount_pos hblocked hsolved
    omega
  | @apply _ m d _ hsome _ ih =>
    have hm := hcoherent m hq
    obtain ⟨hd, hnext⟩ := hstep m d hq hsome
    have hfewer : (d.apply m).1.activeCandidateCount < m.activeCandidateCount :=
      hd.activeCandidateCount_lt hm
    obtain ⟨hsound, hlast⟩ := ih hnext (by omega)
    exact ⟨hsound.cons hm hd _, hlast⟩

/-- A run without the strategies that assume a unique solution is sound. -/
theorem run_sound (hs : ∀ s ∈ strategies, s.assumesUnique = false) {n : Nat} (hm : m.Coherent)
    (hf : m.Fits) (hn : m.activeCandidateCount ≤ n) :
    Sound strategies m (run strategies n m) := by
  refine (run_sound_of (Q := fun n => n.Coherent ∧ n.Fits) (fun n hn => hn.1)
    (fun n d hn hstep => ?_) ⟨hm, hf⟩ hn).1
  obtain ⟨hm, hf⟩ := hn
  have hd := step_justified hs hm hf hstep
  have hboard : (d.apply n).1.board = n.board :=
    (Action.removes_applyAll hm (hd.allAllowed hm)).board
  exact ⟨hd, Deduction.coherent_apply hm (hd.allAllowed hm), hf.of_board hboard⟩

end Solver

section Solved

variable {P : Type}

/-- Solving without the strategies that assume a unique solution changes no solution. Each deduction
leaves the full solutions as they were. If the run ends with everything satisfied, the matrix had
one full solution, which has been found; if it ends blocked, it had none; if it ends stuck, no
strategy sees anything, and the matrix has the full solutions that it had before. -/
theorem Prepared.solve_sound {m : Matrix P} (h : Prepared m) (hf : m.Fits) (config : SolverConfig)
    (hplain : .uniqueRectangle ∉ config.effective)
    (hhidden : .hiddenUniqueRectangle ∉ config.effective) :
    match Solver.solve config.effective m with
    | .error _ => m.constraintCount = 0
    | .ok (n, report) =>
      n = m.applyAll report.deductions ∧
      (∀ ds, ds <+: report.deductions → ∀ F,
        (m.applyAll ds).FullSolution F ↔ m.FullSolution F) ∧
      match report.outcome with
      | .solved => ∀ F, m.FullSolution F ↔ F = n.solutionCandidates.toFinset
      | .blocked => ∀ F, ¬ m.FullSolution F
      | .stuck => Solver.step config.effective n = none ∧
          ∀ F, n.FullSolution F ↔ m.FullSolution F := by
  have hs : ∀ s ∈ config.effective, s.assumesUnique = false := by
    intro s hmem
    cases s with
    | uniqueRectangle => exact absurd hmem hplain
    | hiddenUniqueRectangle => exact absurd hmem hhidden
    | _ => rfl
  unfold Solver.solve
  split
  · next hzero =>
    split at hzero
    · next hnone => exact hnone
    · cases hzero
  · next n report hok =>
    split at hok
    · cases hok
    · have hrun := Solver.run_sound hs h.coherent hf (Nat.le_refl _)
      rw [Except.ok.inj hok] at hrun
      refine ⟨hrun.matrix, hrun.kept, ?_⟩
      split
      · next hsolved =>
        intro F
        rw [← hrun.fullSolution_iff]
        exact hrun.coherent.fullSolution_of_isSolved (hrun.solved hsolved) F
      · next hblocked =>
        intro F
        rw [← hrun.fullSolution_iff]
        exact hrun.coherent.not_fullSolution_of_isBlocked (hrun.blocked hblocked) F
      · next hstuck => exact ⟨hrun.stuck hstuck, hrun.fullSolution_iff⟩

theorem Prepared.solve_sound_sample :
    ∃ n report,
      Solver.solve (SolverConfig.effective { assumeUnique := false }) Matrix.sample =
        .ok (n, report) ∧
      n.solutionCandidates = [1, 3] ∧
      ∀ F, Matrix.sample.FullSolution F ↔ F = n.solutionCandidates.toFinset := by
  have h := Prepared.solve_sound (.built Matrix.built_sample) ⟨by decide, by decide⟩
    { assumeUnique := false } (by decide) (by decide)
  have hok : Solver.solve (SolverConfig.effective { assumeUnique := false }) Matrix.sample =
      .ok (Solver.run (SolverConfig.effective { assumeUnique := false }) 3 Matrix.sample) := rfl
  have hsolved : (Solver.run (SolverConfig.effective { assumeUnique := false }) 3
      Matrix.sample).2.outcome = .solved := by decide
  have hcells : (Solver.run (SolverConfig.effective { assumeUnique := false }) 3
      Matrix.sample).1.solutionCandidates = [1, 3] := by decide
  rw [hok] at h
  generalize Solver.run (SolverConfig.effective { assumeUnique := false }) 3
    Matrix.sample = out at h hok hsolved hcells
  obtain ⟨n, report⟩ := out
  obtain ⟨-, -, hout⟩ := h
  have hsolved : report.outcome = .solved := hsolved
  rw [hsolved] at hout
  exact ⟨n, report, hok, hcells, hout⟩

end Solved

end ExactCover
