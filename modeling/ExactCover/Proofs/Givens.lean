/-
ExactCover.Proofs.Givens — what hints and eliminations by name ask of a solution.

A hint asks of the full solutions that they have the candidate, an elimination that
they do not have it, unless it has been placed. `Asks` collects that for a matrix in
which some candidates have been fixed and some eliminated, compared with the matrix it
began with. It takes an active candidate to satisfy some active constraint: so it is
where every constraint is primary.
-/
import ExactCover.Proofs.Placements

namespace ExactCover.Matrix

variable {P : Type} {m n : Matrix P} {x : CellId} {F : Finset CandidateId}

/-- Every constraint has to be satisfied. -/
def AllPrimary (m : Matrix P) : Prop := ∀ c, m.HasConstraint c → m.isPrimary c = true

theorem AllPrimary.of_board (h : m.AllPrimary) (hb : n.board = m.board) : n.AllPrimary := by
  unfold AllPrimary
  rw [hasConstraint_of_board hb, isPrimary_of_board hb]
  exact h

/-- An active candidate satisfies nothing but active constraints. -/
theorem AllPrimary.mem_activeConstraints (h : m.AllPrimary) (hm : m.Coherent) {r : CandidateId}
    (ha : m.isCandidateActive r = true) {c : ConstraintId} (hc : m.Hits r c) :
    c ∈ m.activeConstraints := by
  have hcon : m.HasConstraint c := by
    obtain ⟨y, hy, rfl⟩ := hc
    exact hm.laid.hasConstraint_row hy
  exact hm.mem_activeConstraints.mpr ⟨hcon, h c hcon, hm.settled r c ha hc⟩

/-- In a matrix that was built a full solution satisfies every constraint exactly once. -/
theorem Built.fullSolution_iff (h : m.Built) (hprimary : m.AllPrimary) :
    m.FullSolution F ↔ (∀ r ∈ F, m.HasCandidate r) ∧
      ∀ c, m.HasConstraint c → ∃! r, r ∈ F ∧ m.Hits r c := by
  have hfresh := h.fresh
  have hm := hfresh.coherent
  have hcover : m.FullSolution F ↔ m.ResidualCover F := by
    simp only [FullSolution, h.solutionCandidates_eq, List.toFinset_nil, Finset.empty_union,
      exists_eq_right']
  have hactive : ∀ c, c ∈ m.activeConstraints ↔ m.HasConstraint c := fun c => by
    rw [hm.mem_activeConstraints, and_iff_left_of_imp]
    exact fun hc => ⟨hprimary c hc, hfresh.uncovered c⟩
  have hcandidate : ∀ r, r ∈ m.activeCandidates ↔ m.HasCandidate r := fun r => by
    rw [hm.mem_activeCandidates]
    exact ⟨hm.hasCandidate, hfresh.active r⟩
  rw [hcover]
  constructor
  · intro hF
    refine ⟨fun r hr => (hcandidate r).mp (hF.active r hr), fun c hc => ?_⟩
    obtain ⟨r, hr, hrc⟩ := hF.all c ((hactive c).mpr hc)
    exact ⟨r, ⟨hr, hrc⟩, fun q hq => hF.eq_of_hits hq.1 hr hq.2 hrc⟩
  · intro h'
    obtain ⟨hknown, hone⟩ := h'
    have hconstraint : ∀ {r c}, m.Hits r c → m.HasConstraint c := by
      rintro r c ⟨y, hy, rfl⟩
      exact hm.laid.hasConstraint_row hy
    refine ⟨fun r hr => (hcandidate r).mpr (hknown r hr), fun r hr => ?_,
      fun q hq r hr hne c hqc hrc => ?_, fun c hc => ?_⟩
    · have hhits : m.Hits r (m.constraintOf (m.firstCell r)) :=
        ⟨_, hm.laid.firstCell_mem (hknown r hr), rfl⟩
      exact ⟨_, (hactive _).mpr (hconstraint hhits), hhits⟩
    · exact hne ((hone c (hconstraint hqc)).unique ⟨hq, hqc⟩ ⟨hr, hrc⟩)
    · obtain ⟨r, hr⟩ := (hone c ((hactive c).mp hc)).exists
      exact ⟨r, hr⟩

/-- Fixing a candidate leaves the full solutions that have it. -/
theorem Coherent.fullSolution_hinted (hm : m.Coherent) (hacc : m.Accounted)
    (ha : m.isCandidateActive (m.candidateOf x) = true)
    (huse : ∃ c ∈ m.activeConstraints, m.Hits (m.candidateOf x) c) :
    (m.hinted x).FullSolution F ↔ m.FullSolution F ∧ m.candidateOf x ∈ F := by
  have hnew := hacc.not_mem hm ha
  have hplaced : (m.hinted x).solutionCandidates.toFinset =
      insert (m.candidateOf x) m.solutionCandidates.toFinset := by
    rw [List.toFinset_eq_of_perm _ _ (m.solutionCandidates_hinted x), List.toFinset_cons]
  have hcover : ∀ S, (m.hinted x).ResidualCover S ↔
      m.candidateOf x ∉ S ∧ m.ResidualCover (insert (m.candidateOf x) S) := fun S =>
    (residualCover_of_links ((board_hinted m x).trans (relinked_place m x).board.symm)
      (links_hinted m x)).trans (hm.residualCover_place ha huse)
  unfold FullSolution
  rw [hplaced]
  constructor
  · intro h'
    obtain ⟨S, hS, rfl⟩ := h'
    refine ⟨⟨_, ((hcover S).mp hS).2, ?_⟩, by simp⟩
    rw [Finset.insert_union, Finset.union_insert]
  · intro h'
    obtain ⟨⟨S, hS, rfl⟩, hr⟩ := h'
    have hrS : m.candidateOf x ∈ S := by simpa [hnew] using hr
    refine ⟨S.erase (m.candidateOf x), (hcover _).mpr ⟨Finset.notMem_erase _ S, ?_⟩, ?_⟩
    · rwa [Finset.insert_erase hrS]
    · rw [Finset.insert_union, ← Finset.union_insert, Finset.insert_erase hrS]

theorem solutionCandidates_eliminateRow (m : Matrix P) (x : CellId) :
    (m.eliminateRow x).matrix.solutionCandidates = m.solutionCandidates := by
  have hsame := relinked_eliminateRow m x
  simp only [solutionCandidates, hsame.hints, hsame.solution, candidateOf_of_board hsame.board]

/-- Eliminating a candidate leaves the full solutions that do not have it. -/
theorem Coherent.fullSolution_eliminateRow (hm : m.Coherent) (hacc : m.Accounted)
    (ha : m.isCandidateActive (m.candidateOf x) = true) :
    (m.eliminateRow x).matrix.FullSolution F ↔ m.FullSolution F ∧ m.candidateOf x ∉ F := by
  have hnew := hacc.not_mem hm ha
  unfold FullSolution
  rw [solutionCandidates_eliminateRow]
  constructor
  · intro h'
    obtain ⟨S, hS, rfl⟩ := h'
    obtain ⟨hcover, hr⟩ := (hm.residualCover_eliminateRow ha).mp hS
    exact ⟨⟨S, hcover, rfl⟩, by simp [hnew, hr]⟩
  · intro h'
    obtain ⟨⟨S, hS, rfl⟩, hr⟩ := h'
    have hrS : m.candidateOf x ∉ S := fun hrS => hr (Finset.mem_union_right _ hrS)
    exact ⟨S, (hm.residualCover_eliminateRow ha).mpr ⟨hS, hrS⟩, rfl⟩

/-! ## By name -/

section ByName

variable {name : String} {r : CandidateId} {changes : List Change}

/-- A hint on a candidate that is left fixes it. -/
theorem addHint_eq (h : m.candidateByName? name = some r) (ha : m.isCandidateActive r = true) :
    ∃ changes, m.addHint name = .ok (m.hinted (m.firstCell r), changes) := by
  simp only [addHint, activeByName, h, ha, if_true]
  exact ⟨_, rfl⟩

/-- A hint that is taken is on a known candidate that is left. -/
theorem eq_hinted (h : m.addHint name = .ok (n, changes)) :
    ∃ r, m.candidateByName? name = some r ∧ m.isCandidateActive r = true ∧
      n = m.hinted (m.firstCell r) := by
  cases hname : m.candidateByName? name with
  | none => simp [addHint, activeByName, hname] at h
  | some r =>
    cases ha : m.isCandidateActive r with
    | false => simp [addHint, activeByName, hname, ha] at h
    | true =>
      obtain ⟨changes', heq⟩ := addHint_eq hname ha
      rw [heq] at h
      cases h
      exact ⟨r, rfl, ha, rfl⟩

/-- An elimination by name eliminates a known candidate if it is left. -/
theorem eliminateCandidate_eq (h : m.candidateByName? name = some r) :
    m.eliminateCandidate name =
      .ok (if m.isCandidateActive r = true then
        ((m.eliminateRow (m.firstCell r)).matrix, [.removed r]) else (m, [])) := by
  cases ha : m.isCandidateActive r with
  | false => simp [eliminateCandidate, activeByName, h, ha]
  | true => simp [eliminateCandidate, activeByName, h, ha]

end ByName

/-! ## Several hints and eliminations -/

/-- The candidates `fixed` have been fixed in `m₀`, and besides some candidates have been
eliminated, those of `out` among them unless they had been fixed. -/
structure Asks (m₀ m : Matrix P) (fixed out : List CandidateId) : Prop where
  prepared : Prepared m
  accounted : m.Accounted
  board : m.board = m₀.board
  placed : ∀ r, r ∈ m.solutionCandidates ↔ r ∈ fixed
  fullSolution : ∀ F, m.FullSolution F ↔
    m₀.FullSolution F ∧ (∀ r ∈ fixed, r ∈ F) ∧ ∀ r ∈ out, r ∈ F → r ∈ fixed

namespace Asks

variable {m₀ : Matrix P} {fixed out : List CandidateId} {name : String} {changes : List Change}

theorem built (h : m₀.Built) : Asks m₀ m₀ [] [] := by
  exact ⟨.built h, .built h, rfl, fun r => by simp [h.solutionCandidates_eq], fun F => by simp⟩

theorem hint (h : Asks m₀ m fixed []) (hprimary : m₀.AllPrimary) {r : CandidateId}
    (hr : m.candidateByName? name = some r) (hok : m.addHint name = .ok (n, changes)) :
    Asks m₀ n (r :: fixed) [] := by
  have hm := h.prepared.coherent
  obtain ⟨r', hr', ha, rfl⟩ := eq_hinted hok
  cases hr.symm.trans hr'
  have hcell := hm.candidateOf_firstCell ha
  have hac : m.isCandidateActive (m.candidateOf (m.firstCell r)) = true := hcell.symm ▸ ha
  have hb := board_hinted m (m.firstCell r)
  have huse : ∃ c ∈ m.activeConstraints, m.Hits (m.candidateOf (m.firstCell r)) c := by
    have hfirst := hm.laid.firstCell_mem (hm.hasCandidate ha)
    have hhits : m.Hits r (m.constraintOf (m.firstCell r)) := ⟨_, hfirst, rfl⟩
    rw [hcell]
    exact ⟨_, (hprimary.of_board h.board).mem_activeConstraints hm ha hhits, hhits⟩
  have hperm := m.solutionCandidates_hinted (m.firstCell r)
  rw [hcell] at hperm
  refine ⟨.hint h.prepared hok, ?_, hb.trans h.board, fun q => ?_, fun F => ?_⟩
  · exact h.accounted.hinted hm hac
  · rw [hperm.mem_iff, List.mem_cons, List.mem_cons, h.placed]
  · rw [hm.fullSolution_hinted h.accounted hac huse, hcell, h.fullSolution]
    simp only [List.not_mem_nil, false_imp_iff, implies_true, and_true, List.forall_mem_cons,
      and_assoc, and_comm (a := r ∈ F)]

theorem eliminate (h : Asks m₀ m fixed out) {r : CandidateId}
    (hr : m.candidateByName? name = some r) (hok : m.eliminateCandidate name = .ok (n, changes)) :
    Asks m₀ n fixed (r :: out) := by
  have hm := h.prepared.coherent
  have hprepared : Prepared n := .eliminateCandidate h.prepared hok
  rw [eliminateCandidate_eq hr] at hok
  -- of the full solutions that are left, one that has `r` has it among the fixed ones
  have hsplit : ∀ F, (n.FullSolution F ↔ m.FullSolution F ∧ (r ∈ F → r ∈ fixed)) →
      (n.FullSolution F ↔ m₀.FullSolution F ∧ (∀ q ∈ fixed, q ∈ F) ∧
        ∀ q ∈ r :: out, q ∈ F → q ∈ fixed) := by
    intro F hF
    rw [hF, h.fullSolution]
    simp only [List.forall_mem_cons, and_assoc, and_comm (a := r ∈ F → r ∈ fixed)]
  cases ha : m.isCandidateActive r with
  | false =>
    rw [ha, if_neg Bool.false_ne_true] at hok
    cases hok
    refine ⟨hprepared, h.accounted, h.board, h.placed,
      fun F => hsplit F ⟨fun hF => ⟨hF, ?_⟩, And.left⟩⟩
    intro hrF
    obtain ⟨S, hS, rfl⟩ := hF
    rcases Finset.mem_union.mp hrF with hplaced | hrS
    · exact (h.placed r).mp (List.mem_toFinset.mp hplaced)
    · rw [hm.mem_activeCandidates.mp (hS.active r hrS)] at ha
      cases ha
  | true =>
    rw [ha, if_pos rfl] at hok
    cases hok
    have hcell := hm.candidateOf_firstCell ha
    have hac : m.isCandidateActive (m.candidateOf (m.firstCell r)) = true := hcell.symm ▸ ha
    have hnew : r ∉ fixed := fun hfixed =>
      h.accounted.not_mem hm ha ((h.placed r).mpr hfixed)
    refine ⟨hprepared, h.accounted.eliminateRow hm hac,
      (relinked_eliminateRow m _).board.trans h.board, fun q => ?_, fun F => hsplit F ?_⟩
    · rw [solutionCandidates_eliminateRow, h.placed]
    · rw [hm.fullSolution_eliminateRow h.accounted hac, hcell]
      simp only [hnew, imp_false]

end Asks

end ExactCover.Matrix
