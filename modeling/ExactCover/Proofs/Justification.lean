/-
ExactCover.Proofs.Justification — deductions that keep every solution.

A candidate is `Forced` when every residual cover has it, and `Excluded` when none
does. Actions are `Justified` when they place a forced candidate, or take out
different excluded ones. Justified actions can be performed, and they leave the
set of full solutions as it was (`Justified.fullSolution_iff`): that is all that has
to be known about a strategy.
-/
import Mathlib.Data.Finset.Basic
import ExactCover.Proofs.ExactCovers
import ExactCover.Strategy.Elimination

namespace ExactCover.Matrix

variable {P : Type}

/-- Every residual cover has the candidate. -/
def Forced (m : Matrix P) (r : CandidateId) : Prop := ∀ S, m.ResidualCover S → r ∈ S

/-- No residual cover has the candidate. -/
def Excluded (m : Matrix P) (r : CandidateId) : Prop := ∀ S, m.ResidualCover S → r ∉ S

/-- The candidates of some cells are active and different from each other. -/
structure AllActive (m : Matrix P) (hs : List CellId) : Prop where
  nodup : (hs.map m.candidateOf).Nodup
  active : ∀ h ∈ hs, m.isCandidateActive (m.candidateOf h) = true

/-- The candidates of some cells are active, different from each other, and in no residual cover. -/
structure AllExcluded (m : Matrix P) (hs : List CellId) : Prop where
  nodup : (hs.map m.candidateOf).Nodup
  active : ∀ h ∈ hs, m.isCandidateActive (m.candidateOf h) = true
  excluded : ∀ h ∈ hs, m.Excluded (m.candidateOf h)

/-- Actions that place a forced candidate or take out some excluded ones. -/
inductive Justified (m : Matrix P) : List Action → Prop
  | solve {c : ConstraintId} {h : CellId} :
      c ∈ m.activeConstraints → h ∈ m.column c → m.Forced (m.candidateOf h) →
      Justified m [.solve h]
  | eliminate {hs : List CellId} : hs ≠ [] → m.AllExcluded hs →
      Justified m (hs.map .eliminate)

section Justified

variable {m : Matrix P} {h : CellId} {hs : List CellId} {F S : Finset CandidateId}

/-- When the first of several active candidates is taken out, the others are still active. -/
theorem AllActive.tail (hm : m.Coherent) (hx : m.AllActive (h :: hs)) :
    (m.eliminateRow h).matrix.AllActive hs := by
  have hn := hm.narrows_eliminateRow (hx.active h List.mem_cons_self)
  obtain ⟨hnew, hnodup⟩ := List.nodup_cons.mp hx.nodup
  rw [← candidateOf_of_board hn.board] at hnodup
  refine ⟨hnodup, fun k hk => ?_⟩
  rw [candidateOf_of_board hn.board]
  refine (hn.active _).mpr ⟨hx.active k (List.mem_cons_of_mem h hk), fun he => hnew ?_⟩
  exact he ▸ List.mem_map_of_mem hk

theorem AllActive.allAllowed (hm : m.Coherent) (hx : m.AllActive hs) :
    Action.AllAllowed m (hs.map .eliminate) := by
  induction hs generalizing m with
  | nil => trivial
  | cons h hs ih =>
    have ha := hx.active h List.mem_cons_self
    exact ⟨ha, ih (hm.eliminateRow ha) (hx.tail hm)⟩

theorem AllExcluded.allActive (hx : m.AllExcluded hs) : m.AllActive hs := ⟨hx.nodup, hx.active⟩

/-- When an excluded candidate is taken out, every residual cover stays one. -/
theorem Coherent.residualCover_exclude (hm : m.Coherent)
    (ha : m.isCandidateActive (m.candidateOf h) = true) (hx : m.Excluded (m.candidateOf h)) :
    (m.eliminateRow h).matrix.ResidualCover S ↔ m.ResidualCover S := by
  rw [hm.residualCover_eliminateRow ha]
  exact ⟨fun hS => hS.1, fun hS => ⟨hS, hx S hS⟩⟩

theorem Coherent.fullSolution_exclude (hm : m.Coherent)
    (ha : m.isCandidateActive (m.candidateOf h) = true) (hx : m.Excluded (m.candidateOf h)) :
    (m.eliminateRow h).matrix.FullSolution F ↔ m.FullSolution F := by
  have hsame := relinked_eliminateRow m h
  have hcells : (m.eliminateRow h).matrix.solutionCandidates = m.solutionCandidates := by
    simp only [solutionCandidates, hsame.hints, hsame.solution, candidateOf_of_board hsame.board]
  unfold FullSolution
  rw [hcells]
  exact exists_congr fun S => and_congr_left fun _ => hm.residualCover_exclude ha hx

/-- When the first of several excluded candidates is taken out, the others are still excluded. -/
theorem AllExcluded.tail (hm : m.Coherent) (hx : m.AllExcluded (h :: hs)) :
    (m.eliminateRow h).matrix.AllExcluded hs := by
  have ha := hx.active h List.mem_cons_self
  have hb := (hm.narrows_eliminateRow ha).board
  obtain ⟨hnodup, hactive⟩ := hx.allActive.tail hm
  refine ⟨hnodup, hactive, fun k hk S hS => ?_⟩
  rw [candidateOf_of_board hb]
  have hmS := (hm.residualCover_exclude ha (hx.excluded h List.mem_cons_self)).mp hS
  exact hx.excluded k (List.mem_cons_of_mem h hk) S hmS

theorem AllExcluded.fullSolution_iff (hm : m.Coherent) (hx : m.AllExcluded hs) :
    (runChanges Action.apply m (hs.map .eliminate)).1.FullSolution F ↔ m.FullSolution F := by
  induction hs generalizing m with
  | nil => rfl
  | cons h hs ih =>
    have ha := hx.active h List.mem_cons_self
    rw [← hm.fullSolution_exclude ha (hx.excluded h List.mem_cons_self)]
    exact ih (hm.eliminateRow ha) (hx.tail hm)

theorem solutionCandidates_solve (m : Matrix P) (h : CellId) :
    ((m.place h).matrix.pushSolution h).solutionCandidates =
      m.solutionCandidates ++ [m.candidateOf h] := by
  have hsame := relinked_place m h
  have hcell : ((m.place h).matrix.pushSolution h).candidateOf = m.candidateOf :=
    candidateOf_of_board hsame.board
  have hhints : ((m.place h).matrix.pushSolution h).hints = m.hints := hsame.hints
  have hstack : ((m.place h).matrix.pushSolution h).solution = m.solution.push h :=
    congrArg (·.push h) hsame.solution
  simp [solutionCandidates, hcell, hhints, hstack]

/-- Placing a forced candidate moves it from every residual cover to what has been placed. -/
theorem Coherent.fullSolution_force (hm : m.Coherent) {c : ConstraintId}
    (hc : c ∈ m.activeConstraints) (hh : h ∈ m.column c) (hx : m.Forced (m.candidateOf h)) :
    ((m.place h).matrix.pushSolution h).FullSolution F ↔ m.FullSolution F := by
  obtain ⟨hcon, -, hu⟩ := hm.mem_activeConstraints.mp hc
  obtain ⟨hhc, ha⟩ := (hm.mem_column_iff hcon hu).mp hh
  have hcover := fun S => hm.residualCover_solve (S := S) ha ⟨c, hc, h, hm.mem_row ha, hhc⟩
  have hunion : ∀ S : Finset CandidateId,
      (m.solutionCandidates ++ [m.candidateOf h]).toFinset ∪ S =
        m.solutionCandidates.toFinset ∪ insert (m.candidateOf h) S := fun S => by
    ext r
    simp only [Finset.mem_union, List.mem_toFinset, List.mem_append, List.mem_singleton,
      Finset.mem_insert, or_assoc]
  unfold FullSolution
  rw [solutionCandidates_solve]
  constructor
  · intro h'
    obtain ⟨S, hS, rfl⟩ := h'
    exact ⟨_, ((hcover S).mp hS).2, hunion S⟩
  · intro h'
    obtain ⟨S, hS, rfl⟩ := h'
    have hr := hx S hS
    refine ⟨S.erase (m.candidateOf h), (hcover _).mpr ⟨Finset.notMem_erase _ S, ?_⟩, ?_⟩
    · rw [Finset.insert_erase hr]
      exact hS
    · rw [hunion, Finset.insert_erase hr]

theorem Justified.allAllowed {as : List Action} (hm : m.Coherent) (h : m.Justified as) :
    Action.AllAllowed m as := by
  cases h with
  | @solve c h hc hh hx =>
    obtain ⟨hcon, -, hu⟩ := hm.mem_activeConstraints.mp hc
    exact ⟨((hm.mem_column_iff hcon hu).mp hh).2, trivial⟩
  | eliminate _ hx => exact hx.allActive.allAllowed hm

/-- Justified actions leave fewer candidates. -/
theorem Justified.activeCandidateCount_lt {as : List Action} (hm : m.Coherent)
    (h : m.Justified as) :
    (runChanges Action.apply m as).1.activeCandidateCount < m.activeCandidateCount := by
  have hle := hm.activeCandidateCount_applyAll (h.allAllowed hm)
  have hpos : 0 < as.length := by
    cases h with
    | solve => exact Nat.one_pos
    | eliminate hne => simpa [List.length_pos_iff] using hne
  omega

/-- Justified actions leave the set of full solutions as it was. -/
theorem Justified.fullSolution_iff {as : List Action} (hm : m.Coherent) (h : m.Justified as) :
    (runChanges Action.apply m as).1.FullSolution F ↔ m.FullSolution F := by
  cases h with
  | solve hc hh hx => exact hm.fullSolution_force hc hh hx
  | eliminate _ hx => exact hx.fullSolution_iff hm

end Justified

end ExactCover.Matrix
