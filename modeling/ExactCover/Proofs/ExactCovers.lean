/-
ExactCover.Proofs.ExactCovers — what is left to be solved in a matrix.

A `ResidualCover` completes what has been placed: active candidates, none of them
useless, that satisfy every active constraint and share none with each other, be
it primary or secondary. A `FullSolution` is such a cover together with the hints
and the solution stack.

Placing a candidate leaves the residual covers that have it, without it
(`Coherent.residualCover_place`); eliminating a candidate leaves those that do not
have it (`Coherent.residualCover_eliminateRow`).
-/
import Mathlib.Data.Finset.Insert
import Mathlib.Data.Finset.Lattice.Basic
import Mathlib.Data.List.Perm.Subperm
import ExactCover.Proofs.Representation

namespace ExactCover.Matrix

variable {P : Type}

/-- A set of candidates that completes what has been placed to an exact cover. -/
structure ResidualCover (m : Matrix P) (S : Finset CandidateId) : Prop where
  active : ∀ r ∈ S, r ∈ m.activeCandidates
  useful : ∀ r ∈ S, ∃ c ∈ m.activeConstraints, m.Hits r c
  apart : ∀ q ∈ S, ∀ r ∈ S, q ≠ r → ∀ c, m.Hits q c → ¬ m.Hits r c
  all : ∀ c ∈ m.activeConstraints, ∃ r ∈ S, m.Hits r c

/-- A residual cover together with what was fixed and what was chosen. -/
def FullSolution (m : Matrix P) (F : Finset CandidateId) : Prop :=
  ∃ S, m.ResidualCover S ∧ F = m.solutionCandidates.toFinset ∪ S

/-- Residual covers are a matter of the board and the links. -/
theorem residualCover_of_links {m n : Matrix P} (hb : n.board = m.board)
    (hl : n.links = m.links) {S : Finset CandidateId} :
    n.ResidualCover S ↔ m.ResidualCover S := by
  have hconstraints : n.activeConstraints = m.activeConstraints := by
    simp only [activeConstraints, hl]
  have hcandidates : n.activeCandidates = m.activeCandidates := by
    simp only [activeCandidates, hl]
  have hhits := hits_of_board hb
  constructor
  · intro h'
    obtain ⟨h1, h2, h3, h4⟩ := h'
    rw [hcandidates] at h1
    rw [hconstraints, hhits] at h2 h4
    rw [hhits] at h3
    exact ⟨h1, h2, h3, h4⟩
  · intro h'
    obtain ⟨h1, h2, h3, h4⟩ := h'
    rw [← hcandidates] at h1
    rw [← hconstraints, ← hhits] at h2 h4
    rw [← hhits] at h3
    exact ⟨h1, h2, h3, h4⟩

/-- When no constraint is active, nothing more is needed, and nothing more is allowed. -/
theorem residualCover_iff_empty {m : Matrix P} (h : m.activeConstraints = [])
    {S : Finset CandidateId} : m.ResidualCover S ↔ S = ∅ := by
  constructor
  · intro hS
    refine Finset.eq_empty_of_forall_notMem fun r hr => ?_
    obtain ⟨c, hc, -⟩ := hS.useful r hr
    rw [h] at hc
    cases hc
  · rintro rfl
    exact ⟨by simp, by simp, by simp, by simp [h]⟩

namespace ResidualCover

variable {m : Matrix P} {S : Finset CandidateId} {q r : CandidateId} {c : ConstraintId}

/-- Two members of a cover that satisfy the same constraint are the same. -/
theorem eq_of_hits (hS : m.ResidualCover S) (hq : q ∈ S) (hr : r ∈ S) (hqc : m.Hits q c)
    (hrc : m.Hits r c) : q = r := by
  by_contra hne
  exact hS.apart q hq r hr hne c hqc hrc

/-- No two different members of a cover share a constraint. -/
theorem eq_of_shares (hS : m.ResidualCover S) (hq : q ∈ S) (hr : r ∈ S)
    (h : Coherent.Shares m q r) : q = r := by
  obtain ⟨c, hqc, hrc⟩ := h
  exact hS.eq_of_hits hq hr hqc hrc

end ResidualCover

/-! ## What an operation leaves of the active ones -/

/-- An ascending list is shorter than a list that has all its members and one more. -/
theorem length_lt_of_ascending {xs ys : List Nat} {a : Nat} (hxs : xs.Pairwise (· < ·))
    (hsub : ∀ x ∈ xs, x ∈ ys) (hmem : a ∈ ys) (hnot : a ∉ xs) : xs.length < ys.length := by
  have hnodup : (a :: xs).Nodup :=
    List.nodup_cons.mpr ⟨hnot, hxs.imp fun hlt => Nat.ne_of_lt hlt⟩
  refine (List.subperm_of_subset hnodup fun x hx => ?_).length_le
  rcases List.mem_cons.mp hx with rfl | hx
  · exact hmem
  · exact hsub x hx

/-- An ascending list of numbers between 0 and `n` leaves these two out. -/
theorem length_le_of_ascending {xs : List Nat} {n : Nat} (hxs : xs.Pairwise (· < ·))
    (hbounds : ∀ x ∈ xs, 0 < x ∧ x < n) : xs.length ≤ n - 1 := by
  have hnodup : xs.Nodup := hxs.imp fun hlt => Nat.ne_of_lt hlt
  have hsub : xs ⊆ List.range' 1 (n - 1) := fun x hx => by
    obtain ⟨hpos, hlt⟩ := hbounds x hx
    rw [List.mem_range'_1]
    omega
  have hle := (List.subperm_of_subset hnodup hsub).length_le
  rwa [List.length_range'] at hle

theorem Coherent.activeConstraintCount_le {m : Matrix P} (hm : m.Coherent) :
    m.activeConstraintCount ≤ m.constraintCount := by
  rw [hm.activeConstraintCount_eq]
  exact length_le_of_ascending hm.activeConstraints_ascending fun c hc =>
    (hm.mem_activeConstraints.mp hc).1

theorem Coherent.activeCandidateCount_le {m : Matrix P} (hm : m.Coherent) :
    m.activeCandidateCount ≤ m.candidateCount := by
  rw [hm.activeCandidateCount_eq]
  exact length_le_of_ascending hm.activeCandidates_ascending fun r hr =>
    hm.hasCandidate (hm.mem_activeCandidates.mp hr)

section Narrowed

variable {m n : Matrix P} {cs : ConstraintId → Prop} {gone : CandidateId → Prop}

theorem Narrows.mem_activeConstraints (hn : m.Narrows n cs gone) (hm : m.Coherent)
    (hk : n.Coherent) {c : ConstraintId} :
    c ∈ n.activeConstraints ↔ c ∈ m.activeConstraints ∧ ¬ cs c := by
  rw [hk.mem_activeConstraints, hm.mem_activeConstraints, hasConstraint_of_board hn.board,
    isPrimary_of_board hn.board, ← Bool.not_eq_true, ← Bool.not_eq_true, hn.covered]
  constructor
  · intro h'
    obtain ⟨hc, hp, hu⟩ := h'
    exact ⟨⟨hc, hp, fun h => hu (Or.inl h)⟩, fun h => hu (Or.inr h)⟩
  · intro h'
    obtain ⟨⟨hc, hp, hu⟩, hcs⟩ := h'
    exact ⟨hc, hp, fun h => h.elim hu hcs⟩

theorem Narrows.mem_activeCandidates (hn : m.Narrows n cs gone) (hm : m.Coherent)
    (hk : n.Coherent) {r : CandidateId} :
    r ∈ n.activeCandidates ↔ r ∈ m.activeCandidates ∧ ¬ gone r := by
  rw [hk.mem_activeCandidates, hm.mem_activeCandidates, hn.active]

/-- Covering an active constraint leaves fewer of them. -/
theorem Narrows.activeConstraintCount_lt (hn : m.Narrows n cs gone) (hm : m.Coherent)
    (hk : n.Coherent) {c : ConstraintId} (hc : c ∈ m.activeConstraints) (hcs : cs c) :
    n.activeConstraintCount < m.activeConstraintCount := by
  have hmem := fun d => hn.mem_activeConstraints hm hk (c := d)
  rw [hk.activeConstraintCount_eq, hm.activeConstraintCount_eq]
  exact length_lt_of_ascending hk.activeConstraints_ascending (fun d hd => ((hmem d).mp hd).1) hc
    fun hcn => ((hmem c).mp hcn).2 hcs

theorem Narrows.activeCandidateCount_le (hn : m.Narrows n cs gone) (hm : m.Coherent)
    (hk : n.Coherent) : n.activeCandidateCount ≤ m.activeCandidateCount := by
  rw [hk.activeCandidateCount_eq, hm.activeCandidateCount_eq]
  have hnodup : n.activeCandidates.Nodup :=
    hk.activeCandidates_ascending.imp fun hlt => Nat.ne_of_lt hlt
  refine (List.subperm_of_subset hnodup fun q hq => ?_).length_le
  exact ((hn.mem_activeCandidates hm hk).mp hq).1

/-- Ruling out an active candidate leaves fewer of them. -/
theorem Narrows.activeCandidateCount_lt (hn : m.Narrows n cs gone) (hm : m.Coherent)
    (hk : n.Coherent) {r : CandidateId} (hr : m.isCandidateActive r = true) (hgone : gone r) :
    n.activeCandidateCount < m.activeCandidateCount := by
  have hmem := fun q => hn.mem_activeCandidates hm hk (r := q)
  rw [hk.activeCandidateCount_eq, hm.activeCandidateCount_eq]
  exact length_lt_of_ascending hk.activeCandidates_ascending (fun q hq => ((hmem q).mp hq).1)
    (hm.mem_activeCandidates.mpr hr) fun hrn => ((hmem r).mp hrn).2 hgone

end Narrowed

namespace Coherent

variable {m : Matrix P} {h : CellId} {S : Finset CandidateId} {q r : CandidateId}

/-- A residual cover has a candidate of every active constraint. -/
theorem exists_mem_column (hm : m.Coherent) {c : ConstraintId} (hc : c ∈ m.activeConstraints)
    (hS : m.ResidualCover S) : ∃ h ∈ m.column c, m.candidateOf h ∈ S := by
  obtain ⟨hcon, -, hu⟩ := hm.mem_activeConstraints.mp hc
  obtain ⟨r, hr, hrc⟩ := hS.all c hc
  have ha := hm.mem_activeCandidates.mp (hS.active r hr)
  obtain ⟨h, hh, rfl⟩ := List.mem_map.mp ((hm.mem_column_candidates hcon hu).mpr ⟨ha, hrc⟩)
  exact ⟨h, hh, hr⟩

/-- A constraint has at most as many candidates left as there are. -/
theorem len_le_activeCandidateCount (hm : m.Coherent) {c : ConstraintId}
    (hc : c ∈ m.activeConstraints) : m.len c ≤ m.activeCandidateCount := by
  obtain ⟨hcon, -, hu⟩ := hm.mem_activeConstraints.mp hc
  rw [hm.len_eq hcon, hm.activeCandidateCount_eq, ← List.length_map (f := m.candidateOf)]
  refine (List.subperm_of_subset (hm.column_candidates_nodup hcon) fun q hq => ?_).length_le
  exact hm.mem_activeCandidates.mpr ((hm.mem_column_candidates hcon hu).mp hq).1

/-- A candidate has a constraint in common with itself. -/
theorem shares_self (hm : m.Coherent) (hr : m.isCandidateActive r = true) : Shares m r r := by
  have hfirst := hm.laid.firstCell_mem (hm.hasCandidate hr)
  exact ⟨_, ⟨_, hfirst, rfl⟩, ⟨_, hfirst, rfl⟩⟩

theorem mem_activeConstraints_place (hm : m.Coherent)
    (ha : m.isCandidateActive (m.candidateOf h) = true) {c : ConstraintId} :
    c ∈ (m.place h).matrix.activeConstraints ↔
      c ∈ m.activeConstraints ∧ ¬ m.Hits (m.candidateOf h) c :=
  (hm.narrows_place ha).mem_activeConstraints hm (hm.place ha)

theorem mem_activeCandidates_place (hm : m.Coherent)
    (ha : m.isCandidateActive (m.candidateOf h) = true) :
    q ∈ (m.place h).matrix.activeCandidates ↔
      q ∈ m.activeCandidates ∧ ¬ Shares m q (m.candidateOf h) :=
  (hm.narrows_place ha).mem_activeCandidates hm (hm.place ha)

/-- Every action leaves fewer candidates. -/
theorem activeCandidateCount_apply (hm : m.Coherent) {a : Action} (ha : a.Allowed m) :
    (a.apply m).1.activeCandidateCount < m.activeCandidateCount := by
  cases a with
  | solve h =>
    have hself := hm.shares_self ha
    exact (hm.narrows_place ha).activeCandidateCount_lt hm (hm.place ha) ha hself
  | eliminate h =>
    exact (hm.narrows_eliminateRow ha).activeCandidateCount_lt hm (hm.eliminateRow ha) ha rfl

/-- Actions leave fewer candidates by as many as there are actions at least. -/
theorem activeCandidateCount_applyAll {as : List Action} (hm : m.Coherent)
    (ha : Action.AllAllowed m as) :
    (runChanges Action.apply m as).1.activeCandidateCount + as.length ≤
      m.activeCandidateCount := by
  induction as generalizing m with
  | nil => exact Nat.le_refl _
  | cons a as ih =>
    have hone := hm.activeCandidateCount_apply ha.1
    have hrest := ih (Action.coherent_apply hm ha.1) ha.2
    show (runChanges Action.apply (a.apply m).1 as).1.activeCandidateCount + (as.length + 1) ≤ _
    omega

/-- What completes a matrix after a placement completes it before, together with the candidate. -/
theorem residualCover_insert (hm : m.Coherent)
    (ha : m.isCandidateActive (m.candidateOf h) = true)
    (huse : ∃ c ∈ m.activeConstraints, m.Hits (m.candidateOf h) c)
    (hS : (m.place h).matrix.ResidualCover S) :
    m.candidateOf h ∉ S ∧ m.ResidualCover (insert (m.candidateOf h) S) := by
  have hconstraint := fun c => hm.mem_activeConstraints_place ha (c := c)
  have hcandidate := fun q => hm.mem_activeCandidates_place ha (q := q)
  have hhits := hits_of_board (hm.narrows_place ha).board
  generalize hr : m.candidateOf h = r at *
  have hapart : ∀ q ∈ S, ¬ Shares m q r := fun q hq => ((hcandidate q).mp (hS.active q hq)).2
  have hnew : r ∉ S := fun hrS => hapart r hrS (hm.shares_self ha)
  refine ⟨hnew, ?_, ?_, ?_, ?_⟩
  · intro q hq
    rcases Finset.mem_insert.mp hq with rfl | hq
    · exact hm.mem_activeCandidates.mpr ha
    · exact ((hcandidate q).mp (hS.active q hq)).1
  · intro q hq
    rcases Finset.mem_insert.mp hq with rfl | hq
    · exact huse
    · obtain ⟨c, hc, hqc⟩ := hS.useful q hq
      rw [hhits] at hqc
      exact ⟨c, ((hconstraint c).mp hc).1, hqc⟩
  · intro q hq p hp hne c hqc hpc
    rcases Finset.mem_insert.mp hq with hqr | hqS
    · rcases Finset.mem_insert.mp hp with hpr | hpS
      · exact hne (hqr.trans hpr.symm)
      · exact hapart p hpS ⟨c, hpc, hqr ▸ hqc⟩
    · rcases Finset.mem_insert.mp hp with hpr | hpS
      · exact hapart q hqS ⟨c, hqc, hpr ▸ hpc⟩
      · rw [← hhits] at hqc hpc
        exact hS.apart q hqS p hpS hne c hqc hpc
  · intro c hc
    by_cases hrc : m.Hits r c
    · exact ⟨r, Finset.mem_insert_self r S, hrc⟩
    · obtain ⟨q, hq, hqc⟩ := hS.all c ((hconstraint c).mpr ⟨hc, hrc⟩)
      rw [hhits] at hqc
      exact ⟨q, Finset.mem_insert_of_mem hq, hqc⟩

/-- A cover that has the candidate loses it with its placement. -/
theorem residualCover_of_insert (hm : m.Coherent)
    (ha : m.isCandidateActive (m.candidateOf h) = true) (hnew : m.candidateOf h ∉ S)
    (hS : m.ResidualCover (insert (m.candidateOf h) S)) :
    (m.place h).matrix.ResidualCover S := by
  have hconstraint := fun c => hm.mem_activeConstraints_place ha (c := c)
  have hcandidate := fun q => hm.mem_activeCandidates_place ha (q := q)
  have hhits := hits_of_board (hm.narrows_place ha).board
  generalize hr : m.candidateOf h = r at *
  have hrS : r ∈ insert r S := Finset.mem_insert_self r S
  have hold : ∀ q ∈ S, q ∈ insert r S := fun q hq => Finset.mem_insert_of_mem hq
  have hne : ∀ q ∈ S, q ≠ r := fun q hq he => hnew (he ▸ hq)
  refine ⟨?_, ?_, ?_, ?_⟩
  · intro q hq
    refine (hcandidate q).mpr ⟨hS.active q (hold q hq), ?_⟩
    intro h'
    obtain ⟨c, hqc, hrc⟩ := h'
    exact hS.apart q (hold q hq) r hrS (hne q hq) c hqc hrc
  · intro q hq
    obtain ⟨c, hc, hqc⟩ := hS.useful q (hold q hq)
    rw [hhits]
    have hrc := hS.apart q (hold q hq) r hrS (hne q hq) c hqc
    exact ⟨c, (hconstraint c).mpr ⟨hc, hrc⟩, hqc⟩
  · intro q hq p hp hqp c hqc hpc
    rw [hhits] at hqc hpc
    exact hS.apart q (hold q hq) p (hold p hp) hqp c hqc hpc
  · intro c hc
    obtain ⟨hcm, hrc⟩ := (hconstraint c).mp hc
    obtain ⟨q, hq, hqc⟩ := hS.all c hcm
    rcases Finset.mem_insert.mp hq with rfl | hq
    · exact absurd hqc hrc
    · rw [hhits]
      exact ⟨q, hq, hqc⟩

/-- The covers that are left when a candidate has been placed are those that have it, without
it. -/
theorem residualCover_place (hm : m.Coherent)
    (ha : m.isCandidateActive (m.candidateOf h) = true)
    (huse : ∃ c ∈ m.activeConstraints, m.Hits (m.candidateOf h) c) :
    (m.place h).matrix.ResidualCover S ↔
      m.candidateOf h ∉ S ∧ m.ResidualCover (insert (m.candidateOf h) S) :=
  ⟨hm.residualCover_insert ha huse, fun h => hm.residualCover_of_insert ha h.1 h.2⟩

/-- Where the placed candidate is recorded makes no difference to what is left. -/
theorem residualCover_solve (hm : m.Coherent)
    (ha : m.isCandidateActive (m.candidateOf h) = true)
    (huse : ∃ c ∈ m.activeConstraints, m.Hits (m.candidateOf h) c) :
    ((m.place h).matrix.pushSolution h).ResidualCover S ↔
      m.candidateOf h ∉ S ∧ m.ResidualCover (insert (m.candidateOf h) S) := by
  rw [← hm.residualCover_place ha huse]
  exact residualCover_of_links (m := (m.place h).matrix) (n := (m.place h).matrix.pushSolution h)
    rfl rfl

/-- The covers that are left when a candidate has been eliminated are those that do not have it. -/
theorem residualCover_eliminateRow (hm : m.Coherent)
    (ha : m.isCandidateActive (m.candidateOf h) = true) :
    (m.eliminateRow h).matrix.ResidualCover S ↔ m.ResidualCover S ∧ m.candidateOf h ∉ S := by
  have hn := hm.narrows_eliminateRow ha
  have hk := hm.eliminateRow ha
  have hconstraint : ∀ c, c ∈ (m.eliminateRow h).matrix.activeConstraints ↔
      c ∈ m.activeConstraints := fun c => by
    rw [hn.mem_activeConstraints hm hk, not_false_eq_true, and_true]
  have hcandidate : ∀ q, q ∈ (m.eliminateRow h).matrix.activeCandidates ↔
      q ∈ m.activeCandidates ∧ q ≠ m.candidateOf h := fun q =>
    hn.mem_activeCandidates hm hk
  have hhits := hits_of_board hn.board
  constructor
  · intro hS
    refine ⟨⟨fun q hq => ((hcandidate q).mp (hS.active q hq)).1, fun q hq => ?_, ?_, ?_⟩, ?_⟩
    · obtain ⟨c, hc, hqc⟩ := hS.useful q hq
      rw [hhits] at hqc
      exact ⟨c, (hconstraint c).mp hc, hqc⟩
    · rw [← hhits]
      exact hS.apart
    · intro c hc
      rw [← hhits]
      exact hS.all c ((hconstraint c).mpr hc)
    · intro hr
      exact ((hcandidate _).mp (hS.active _ hr)).2 rfl
  · intro h'
    obtain ⟨hS, hr⟩ := h'
    refine ⟨fun q hq => (hcandidate q).mpr ⟨hS.active q hq, fun he => hr (he ▸ hq)⟩, ?_, ?_, ?_⟩
    · intro q hq
      obtain ⟨c, hc, hqc⟩ := hS.useful q hq
      rw [hhits]
      exact ⟨c, (hconstraint c).mpr hc, hqc⟩
    · rw [hhits]
      exact hS.apart
    · intro c hc
      rw [hhits]
      exact hS.all c ((hconstraint c).mp hc)

end Coherent

end ExactCover.Matrix
