/-
ExactCover.Proofs.Placements — what has been placed accounts for what is covered.

Hints, deductions and eliminations deal with whole candidates: an entry of a
history that does is `Whole`. After whole entries the covered constraints are just
those of the placed candidates, which have none in common (`Accounted`). One
placement keeps that (`Accounted.place`), an elimination touches no part of it, and
so a history does (`Trail.accounted`).

What follows is `Accounts`: which candidates are ruled out and when a hint is refused,
and that in a matrix that counts as solved every primary constraint is satisfied once
and every other at most once. It holds of whatever is reached by whole entries, of
all that a search from there shows, and of all that the solver makes of it
(`Reached.accounts`), because a choice of the search is a history like a deduction.
-/
import Mathlib.Data.List.Perm.Basic
import ExactCover.Proofs.Applicability
import ExactCover.Proofs.Enumeration
import ExactCover.Search.Solutions

namespace ExactCover

/-- The entry places or takes out whole candidates. -/
def Entry.Whole : Entry → Prop
  | hint _ | deduction _ | move (.eliminate _) => True
  | move (.cover _) | move (.coverRow _) | move (.push _) => False

namespace Matrix

variable {P : Type} {m n : Matrix P}

open Coherent (Shares)

/-- The covered constraints are those of the placed candidates, and no two of these share one. -/
structure Accounted (m : Matrix P) : Prop where
  known : ∀ r ∈ m.solutionCandidates, m.HasCandidate r
  apart : m.solutionCandidates.Pairwise fun q r => ¬ Shares m q r
  covered : ∀ c, m.isCovered c = true ↔ ∃ r ∈ m.solutionCandidates, m.Hits r c

instance (m : Matrix P) (r : CandidateId) (c : ConstraintId) : Decidable (m.Hits r c) :=
  inferInstanceAs (Decidable (∃ h ∈ m.row r, m.constraintOf h = c))

/-- How many of the placed candidates satisfy a constraint. -/
def timesSatisfied (m : Matrix P) (c : ConstraintId) : Nat :=
  m.solutionCandidates.countP fun r => m.Hits r c

/-- The placed candidates satisfy every primary constraint once and every other one at most once. -/
def Satisfied (m : Matrix P) : Prop :=
  ∀ c, m.HasConstraint c → m.timesSatisfied c ≤ 1 ∧ (m.isPrimary c = true → m.timesSatisfied c = 1)

/-- A candidate has been placed or eliminated, or it shares a constraint with a placed one. -/
def RuledOut (m : Matrix P) (eliminated : List CandidateId) (r : CandidateId) : Prop :=
  r ∈ m.solutionCandidates ∨ (∃ q ∈ m.solutionCandidates, Shares m r q) ∨ r ∈ eliminated

/-- What has been placed and what has been eliminated account for what is left. -/
structure Accounts (m : Matrix P) (eliminated : List CandidateId) : Prop extends Accounted m where
  inactive : ∀ r, m.HasCandidate r →
    (m.isCandidateActive r = false ↔ m.RuledOut eliminated r)
  refused : ∀ name r, m.candidateByName? name = some r →
    (m.addHint name = .error (.inactiveCandidate name) ↔ m.RuledOut eliminated r)
  satisfied : m.isSolved = true → m.Satisfied

theorem shares_of_board (e : n.board = m.board) : Shares n = Shares m := by
  funext q r; simp only [Shares, hits_of_board e]

/-! ## Single steps -/

/-- Whatever leaves the board, the covered constraints and the placed candidates alone. -/
theorem Accounted.congr (h : m.Accounted) (hb : n.board = m.board)
    (hc : ∀ c, n.isCovered c = m.isCovered c) (hs : n.solutionCandidates = m.solutionCandidates) :
    n.Accounted := by
  refine ⟨?_, ?_, fun c => ?_⟩
  · rw [hs, hasCandidate_of_board hb]
    exact h.known
  · rw [hs, shares_of_board hb]
    exact h.apart
  · rw [hs, hc, hits_of_board hb]
    exact h.covered c

/-- An active candidate shares no constraint with one that has been placed. -/
theorem Accounted.not_shares (h : m.Accounted) (hm : m.Coherent) {q r : CandidateId}
    (ha : m.isCandidateActive r = true) (hq : q ∈ m.solutionCandidates) : ¬ Shares m r q := by
  intro h'
  obtain ⟨c, hrc, hqc⟩ := h'
  have hcov := (h.covered c).mpr ⟨q, hq, hqc⟩
  rw [hm.settled r c ha hrc] at hcov
  cases hcov

/-- An active candidate has not been placed. -/
theorem Accounted.not_mem (h : m.Accounted) (hm : m.Coherent) {r : CandidateId}
    (ha : m.isCandidateActive r = true) : r ∉ m.solutionCandidates := fun hr =>
  h.not_shares hm ha hr (hm.shares_self ha)

/-- A cover is what a full solution has besides the placed candidates. -/
theorem Accounted.eq_of_union (h : m.Accounted) (hm : m.Coherent) {S T : Finset CandidateId}
    (hS : m.ResidualCover S) (hT : m.ResidualCover T)
    (heq : m.solutionCandidates.toFinset ∪ S = m.solutionCandidates.toFinset ∪ T) : S = T := by
  have hnew : ∀ U, m.ResidualCover U → Disjoint m.solutionCandidates.toFinset U := fun U hU =>
    Finset.disjoint_left.mpr fun r hr hrU =>
      h.not_mem hm (hm.mem_activeCandidates.mp (hU.active r hrU)) (List.mem_toFinset.mp hr)
  calc S = (m.solutionCandidates.toFinset ∪ S) \ m.solutionCandidates.toFinset :=
        (Finset.union_sdiff_cancel_left (hnew S hS)).symm
    _ = (m.solutionCandidates.toFinset ∪ T) \ m.solutionCandidates.toFinset := by rw [heq]
    _ = T := Finset.union_sdiff_cancel_left (hnew T hT)

/-- When an active candidate is placed, and recorded anywhere among those that were placed before,
it accounts for the constraints that this covers. -/
theorem Accounted.place (h : m.Accounted) (hm : m.Coherent) {x : CellId}
    (ha : m.isCandidateActive (m.candidateOf x) = true) (hb : n.board = m.board)
    (hl : n.links = (m.place x).matrix.links)
    (hs : n.solutionCandidates.Perm (m.candidateOf x :: m.solutionCandidates)) :
    n.Accounted := by
  have hn := hm.narrows_place ha
  have hcov : ∀ c, n.isCovered c = (m.place x).matrix.isCovered c := fun c => by
    simp only [isCovered, hl]
  refine ⟨fun r hr => ?_, ?_, fun c => ?_⟩
  · rw [hasCandidate_of_board hb]
    rcases List.mem_cons.mp (hs.mem_iff.mp hr) with rfl | hr
    · exact hm.hasCandidate ha
    · exact h.known r hr
  · rw [shares_of_board hb, hs.pairwise_iff fun hqr hrq => hqr (Shares.symm hrq)]
    exact List.pairwise_cons.mpr ⟨fun q hq => h.not_shares hm ha hq, h.apart⟩
  · rw [hcov, hn.covered, h.covered, hits_of_board hb, or_comm]
    simp only [hs.mem_iff, List.mem_cons, or_and_right, exists_or, exists_eq_left]

/-- The matrix in which a candidate has been fixed by one of its cells. -/
def hinted (m : Matrix P) (x : CellId) : Matrix P :=
  { (m.place x).matrix with hints := (m.place x).matrix.hints.push x }

theorem board_hinted (m : Matrix P) (x : CellId) : (m.hinted x).board = m.board := by
  unfold hinted
  exact (relinked_place m x).board

theorem links_hinted (m : Matrix P) (x : CellId) :
    (m.hinted x).links = (m.place x).matrix.links := by
  unfold hinted
  rfl

theorem hints_hinted (m : Matrix P) (x : CellId) : (m.hinted x).hints = m.hints.push x := by
  unfold hinted
  rw [(relinked_place m x).hints]

theorem solution_hinted (m : Matrix P) (x : CellId) : (m.hinted x).solution = m.solution := by
  unfold hinted
  exact (relinked_place m x).solution

theorem Coherent.hinted (hm : m.Coherent) {x : CellId}
    (ha : m.isCandidateActive (m.candidateOf x) = true) : (m.hinted x).Coherent :=
  (hm.place ha).of_links ((board_hinted m x).trans (relinked_place m x).board.symm)
    (links_hinted m x)

/-- A hint does to the flags what placing its candidate does. -/
theorem Coherent.narrows_hinted (hm : m.Coherent) {x : CellId}
    (ha : m.isCandidateActive (m.candidateOf x) = true) :
    m.Narrows (m.hinted x) (m.Hits (m.candidateOf x)) fun q => Shares m q (m.candidateOf x) := by
  have hn := hm.narrows_place ha
  refine ⟨board_hinted m x, fun c => ?_, fun q => ?_⟩
  · rw [isCovered, links_hinted]
    exact hn.covered c
  · rw [isCandidateActive, links_hinted]
    exact hn.active q

theorem solutionCandidates_hinted (m : Matrix P) (x : CellId) :
    (m.hinted x).solutionCandidates.Perm (m.candidateOf x :: m.solutionCandidates) := by
  simp only [solutionCandidates, candidateOf_of_board (board_hinted m x), hints_hinted,
    solution_hinted, Array.toList_push, List.map_append, List.append_assoc, List.map_cons,
    List.singleton_append]
  exact List.perm_middle

theorem Accounted.hinted (h : m.Accounted) (hm : m.Coherent) {x : CellId}
    (ha : m.isCandidateActive (m.candidateOf x) = true) : (m.hinted x).Accounted :=
  h.place hm ha (board_hinted m x) (links_hinted m x) (m.solutionCandidates_hinted x)

theorem Accounted.eliminateRow (h : m.Accounted) (hm : m.Coherent) {x : CellId}
    (ha : m.isCandidateActive (m.candidateOf x) = true) : (m.eliminateRow x).matrix.Accounted := by
  have hsame := relinked_eliminateRow m x
  have hn := hm.narrows_eliminateRow ha
  refine h.congr hsame.board (fun c => ?_) ?_
  · rw [Bool.eq_iff_iff, hn.covered, or_false]
  · simp only [solutionCandidates, hsame.hints, hsame.solution, candidateOf_of_board hsame.board]

theorem Built.solutionCandidates_eq (h : m.Built) : m.solutionCandidates = [] := by
  obtain ⟨hhints, hsolution⟩ := h.nothing_placed
  simp only [solutionCandidates, hhints, hsolution]
  rfl

theorem Accounted.built (h : m.Built) : m.Accounted := by
  have hnone := h.solutionCandidates_eq
  refine ⟨?_, ?_, fun c => ?_⟩
  · simp [hnone]
  · simp [hnone]
  · simp [hnone, h.fresh.uncovered c]

end Matrix

/-! ## Histories -/

section Histories

variable {P : Type} {m : Matrix P}

theorem Action.accounted_apply {a : Action} (hm : m.Coherent) (ha : a.Allowed m)
    (h : m.Accounted) : (a.apply m).1.Accounted := by
  cases a with
  | solve x =>
    refine h.place hm ha (Matrix.relinked_place m x).board rfl ?_
    show ((m.place x).matrix.pushSolution x).solutionCandidates.Perm _
    rw [Matrix.solutionCandidates_solve]
    exact List.perm_append_singleton _ _
  | eliminate x => exact h.eliminateRow hm ha

theorem Action.accounted_applyAll {as : List Action} (hm : m.Coherent)
    (ha : Action.AllAllowed m as) (h : m.Accounted) :
    (runChanges Action.apply m as).1.Accounted := by
  induction as generalizing m with
  | nil => exact h
  | cons a as ih =>
    exact ih (Action.coherent_apply hm ha.1) ha.2 (Action.accounted_apply hm ha.1 h)

/-- After whole entries the placed candidates account for what is covered. -/
theorem Trail.accounted {es : List Entry} (h : Trail es m) (hes : ∀ e ∈ es, e.Whole) :
    m.Accounted := by
  induction h with
  | built hb => exact Matrix.Accounted.built hb
  | @hint es m x hbefore ha ih =>
    have hold := ih fun e he => hes e (List.mem_cons_of_mem _ he)
    exact hold.hinted hbefore.coherent ha
  | @move es m a hbefore ha ih =>
    have hold := ih fun e he => hes e (List.mem_cons_of_mem _ he)
    cases a with
    | eliminate x => exact hold.eliminateRow hbefore.coherent ha
    | cover c => exact absurd (hes _ List.mem_cons_self) id
    | coverRow x => exact absurd (hes _ List.mem_cons_self) id
    | push x => exact absurd (hes _ List.mem_cons_self) id
  | apply hbefore hd ih =>
    have hold := ih fun e he => hes e (List.mem_cons_of_mem _ he)
    exact Action.accounted_applyAll hbefore.coherent hd hold

end Histories

/-! ## What is ruled out and what is satisfied -/

namespace Matrix

variable {P : Type} {m : Matrix P}

open Coherent (Shares)

/-- Of candidates that share no constraint with each other one at most satisfies a constraint. -/
theorem Accounted.timesSatisfied_le_one (h : m.Accounted) (c : ConstraintId) :
    m.timesSatisfied c ≤ 1 := by
  have hapart := h.apart.sublist (List.filter_sublist (p := fun r => decide (m.Hits r c)))
  rw [timesSatisfied, List.countP_eq_length_filter]
  match hhits : m.solutionCandidates.filter fun r => decide (m.Hits r c) with
  | [] => exact Nat.zero_le _
  | [r] => exact Nat.le_refl _
  | q :: r :: rest =>
    have hmem : ∀ x ∈ [q, r], m.Hits x c := fun x hx => by
      have hx : x ∈ m.solutionCandidates.filter fun r => decide (m.Hits r c) := by
        rw [hhits]
        exact List.mem_append_left rest hx
      exact of_decide_eq_true (List.mem_filter.mp hx).2
    rw [hhits] at hapart
    have hshares : Shares m q r := ⟨c, hmem q (by simp), hmem r (by simp)⟩
    exact absurd hshares ((List.pairwise_cons.mp hapart).1 r List.mem_cons_self)

/-- When no primary constraint is left, everything is satisfied. -/
theorem Accounted.satisfied_of_isSolved (h : m.Accounted) (hm : m.Coherent)
    (hsolved : m.isSolved = true) : m.Satisfied := by
  have hnone : m.activeConstraints = [] := by
    have hcount : m.activeConstraintCount = 0 := beq_iff_eq.mp hsolved
    rwa [hm.activeConstraintCount_eq, List.length_eq_zero_iff] at hcount
  intro c hc
  have hle := h.timesSatisfied_le_one c
  refine ⟨hle, fun hp => Nat.le_antisymm hle ?_⟩
  have hcov : m.isCovered c = true := by
    refine Bool.of_not_eq_false fun hu => ?_
    have hactive := hm.mem_activeConstraints.mpr ⟨hc, hp, hu⟩
    rw [hnone] at hactive
    cases hactive
  obtain ⟨r, hr, hrc⟩ := (h.covered c).mp hcov
  exact List.countP_pos_iff.mpr ⟨r, hr, decide_eq_true hrc⟩

/-- A hint on a known candidate is refused just when the candidate is not active. -/
theorem addHint_refused_iff {name : String} {r : CandidateId}
    (h : m.candidateByName? name = some r) :
    m.addHint name = .error (.inactiveCandidate name) ↔ m.isCandidateActive r = false := by
  cases ha : m.isCandidateActive r with
  | true => simp [addHint, activeByName, h, ha]
  | false => simp [addHint, activeByName, h, ha]

theorem candidateByName_some (hl : m.Laid) {name : String} {r : CandidateId}
    (h : m.candidateByName? name = some r) : m.HasCandidate r := by
  unfold candidateByName? at h
  obtain ⟨hr, hp, -⟩ := Array.findIdx?_eq_some_iff_getElem.mp h
  refine ⟨Nat.pos_of_ne_zero ?_, hr⟩
  rintro rfl
  have hroot := hl.rootCandidate
  rw [candidate, Array.getD_eq_getD_getElem?, Array.getElem?_eq_getElem hr,
    Option.getD_some] at hroot
  simp [hroot, Candidate.root] at hp

end Matrix

section Reached

variable {P : Type} {es : List Entry} {m : Matrix P}

/-- After whole entries a candidate is left unless it has been placed or eliminated or shares a
constraint with a placed one. -/
theorem Reached.isCandidateActive_eq_false_iff (h : Reached es m) (hes : ∀ e ∈ es, e.Whole)
    {r : CandidateId} (hr : m.HasCandidate r) :
    m.isCandidateActive r = false ↔ m.RuledOut (es.flatMap (Entry.eliminated m)) r := by
  have hm := h.coherent
  have hacc := h.trail.accounted hes
  rw [← Bool.not_eq_true, ← hm.mem_activeCandidates, h.represents.mem_candidates]
  constructor
  · intro hout
    by_cases hlost : r ∈ es.flatMap (Entry.eliminated m)
    · exact Or.inr (Or.inr hlost)
    · have hcov : ¬ ∀ c, m.Hits r c → m.isCovered c = false := fun hopen =>
        hout ⟨hr, hopen, hlost⟩
      push Not at hcov
      obtain ⟨c, hrc, hc⟩ := hcov
      obtain ⟨q, hq, hqc⟩ := (hacc.covered c).mp (Bool.of_not_eq_false hc)
      exact Or.inr (Or.inl ⟨q, hq, c, hrc, hqc⟩)
  · rintro (hplaced | ⟨q, hq, c, hrc, hqc⟩ | hlost) ⟨-, hopen, hkept⟩
    · have hfirst := hm.laid.firstCell_mem hr
      have hcov := (hacc.covered _).mpr ⟨r, hplaced, _, hfirst, rfl⟩
      rw [hopen _ ⟨_, hfirst, rfl⟩] at hcov
      cases hcov
    · have hcov := (hacc.covered c).mpr ⟨q, hq, hqc⟩
      rw [hopen c hrc] at hcov
      cases hcov
    · exact hkept hlost

theorem Reached.accounts_of_whole (h : Reached es m) (hes : ∀ e ∈ es, e.Whole) :
    m.Accounts (es.flatMap (Entry.eliminated m)) := by
  have hacc := h.trail.accounted hes
  refine ⟨hacc, fun r hr => h.isCandidateActive_eq_false_iff hes hr, fun name r hname => ?_,
    hacc.satisfied_of_isSolved h.coherent⟩
  have hr := Matrix.candidateByName_some h.coherent.laid hname
  rw [Matrix.addHint_refused_iff hname, h.isCandidateActive_eq_false_iff hes hr]

/-! ## What a search shows -/

namespace Search

/-- The deduction that places the candidate of a cell. -/
def placement (m : Matrix P) (h : CellId) : Deduction where
  strategy := .singles
  pattern := .single (m.constraintOf h)
  actions := [.solve h]
  description := ""

/-- A choice of the search does to a matrix what a deduction does that places the candidate. -/
theorem chosen_eq_apply (m : Matrix P) (h : CellId) :
    chosen m h = ((placement m h).apply m).1 := rfl

/-- Whatever a search shows is reached from its matrix by placements, and nothing is left to satisfy
where it shows a solution. -/
theorem reached_of_showings {σ : Type} (limits : SearchLimits) (v : Visitor P σ)
    (stats : Statistics) (state : σ) (h : Reached es m) {showing : Sight P × Bool}
    (hs : showing ∈ showings limits v m stats state) :
    (∃ ds : List Deduction, (∀ d ∈ ds, d.eliminations = []) ∧
        Reached (ds.map .deduction ++ es) showing.1.matrix ∧
        showing.1.matrix.board = m.board) ∧
      ∀ n, showing.1 = .solution n → n.isSolved = true := by
  have hvisited := mem_visits_of_showings limits v stats state h.coherent hs
  obtain ⟨hreached, hsolution⟩ := of_mem_visits (Q := fun n => ∃ ds : List Deduction,
      (∀ d ∈ ds, d.eliminations = []) ∧ Reached (ds.map .deduction ++ es) n ∧
        n.board = m.board)
    (fun n hn => by
      obtain ⟨ds, -, hreached, -⟩ := hn
      exact hreached.coherent)
    (fun n c x hn hc hx => by
      obtain ⟨ds, hds, hreached, hb⟩ := hn
      have ha := hreached.coherent.active_of_column hc hx
      have happlicable : (placement n x).Applicable n := ⟨ha, trivial⟩
      rw [chosen_eq_apply]
      refine ⟨placement n x :: ds, List.forall_mem_cons.mpr ⟨rfl, hds⟩,
        hreached.apply happlicable, ?_⟩
      exact (Matrix.relinked_place n x).board.trans hb)
    ⟨[], by simp, h, rfl⟩ hvisited
  refine ⟨hreached, fun n hn => ?_⟩
  obtain ⟨ds, -, hreached, -⟩ := hreached
  rw [hn] at hreached hsolution
  have hcoherent : n.Coherent := hreached.coherent
  have hcount : n.activeConstraintCount = 0 := by
    rw [hcoherent.activeConstraintCount_eq, hsolution n rfl]
    rfl
  exact beq_iff_eq.mpr hcount

end Search

/-! ## The account -/

theorem Entry.whole_deductions {ds : List Deduction} (hes : ∀ e ∈ es, e.Whole) :
    ∀ e ∈ ds.map Entry.deduction ++ es, e.Whole := by
  intro e he
  rcases List.mem_append.mp he with he | he
  · obtain ⟨d, -, rfl⟩ := List.mem_map.mp he
    exact trivial
  · exact hes e he

/-- Deductions that eliminate nothing add nothing to what has been eliminated. -/
theorem Entry.eliminated_placements {ds : List Deduction} (hds : ∀ d ∈ ds, d.eliminations = []) :
    (ds.map Entry.deduction ++ es).flatMap (Entry.eliminated m) =
      es.flatMap (Entry.eliminated m) := by
  have hnone : (ds.map Entry.deduction).flatMap (Entry.eliminated m) = [] := by
    simp only [List.flatMap_eq_nil_iff, List.mem_map, forall_exists_index, and_imp,
      forall_apply_eq_imp_iff₂, Entry.eliminated, List.map_eq_nil_iff]
    exact hds
  rw [List.flatMap_append, hnone, List.nil_append]

/-- After hints, eliminations and deductions, some of them taken back, no two placed candidates
share a constraint, exactly their constraints are covered, and a candidate is inactive, and refused
as a hint, when it has been placed or eliminated or shares a constraint with a placed one. So it is
in everything that a search shows from there, where every solution satisfies each primary
constraint once and every other at most once, and in the matrix that the solver leaves, whatever
its strategies are, which is satisfied likewise if it is reported as solved. -/
theorem Reached.accounts (h : Reached es m) (hes : ∀ e ∈ es, e.Whole) :
    m.Accounts (es.flatMap (Entry.eliminated m)) ∧
      (∀ (σ : Type) (v : Visitor P σ) limits stats state,
        ∀ showing ∈ Search.showings limits v m stats state,
          showing.1.matrix.Accounts (es.flatMap (Entry.eliminated m)) ∧
            ∀ n, showing.1 = .solution n → n.isSolved = true ∧ n.Satisfied) ∧
      ∀ strategies n report, Solver.solve strategies m = .ok (n, report) →
        n.Accounts ((report.deductions.reverse.map Entry.deduction ++ es).flatMap
            (Entry.eliminated n)) ∧
          (report.outcome = .solved → n.isSolved = true ∧ n.Satisfied) := by
  refine ⟨h.accounts_of_whole hes, ?_, ?_⟩
  · intro σ v limits stats state showing hs
    obtain ⟨⟨ds, hds, hreached, hb⟩, hsolved⟩ :=
      Search.reached_of_showings limits v stats state h hs
    have hacc := hreached.accounts_of_whole (Entry.whole_deductions hes)
    rw [Entry.eliminated_placements hds, Entry.eliminated_of_board hb] at hacc
    refine ⟨hacc, fun n hn => ?_⟩
    rw [hn] at hacc
    exact ⟨hsolved n hn, hacc.satisfied (hsolved n hn)⟩
  · intro strategies n report hok
    obtain ⟨hreached, hsolved⟩ := Solver.solve_reached h hok
    have hacc := hreached.accounts_of_whole (Entry.whole_deductions hes)
    exact ⟨hacc, fun hout => ⟨hsolved hout, hacc.satisfied (hsolved hout)⟩⟩

theorem Reached.accounts_sample :
    ∃ m : Matrix Unit, Reached [.move (.eliminate 8), .hint 4] m ∧ m.Accounts [3] ∧
      (∀ limits stats, ∀ showing ∈ Search.showings limits Search.counter m stats 0,
        showing.1.matrix.Accounts [3]) ∧
      ∀ n report, Solver.solve Strategy.all m = .ok (n, report) → report.outcome = .solved →
        n.Satisfied := by
  have hhint : Matrix.sample.addHint "x" =
      .ok ({ (Matrix.sample.place 4).matrix with hints := #[4] }, [.hinted 1, .removed 2]) := by
    cbv
  have hreached : Reached [.move (.eliminate 8), .hint 4] _ :=
    .move (a := .eliminate 8) (.hint (.built Matrix.built_sample) hhint rfl)
      (by decide : (Matrix.sample.place 4).matrix.isCandidateActive 3 = true)
  have hwhole : ∀ e ∈ [Entry.move (.eliminate 8), .hint 4], e.Whole := by
    simp [Entry.Whole]
  obtain ⟨hacc, hshown, hsolve⟩ := Reached.accounts hreached hwhole
  exact ⟨_, hreached, hacc,
    fun limits stats showing hs => (hshown Nat Search.counter limits stats 0 showing hs).1,
    fun n report hok hout => ((hsolve Strategy.all n report hok).2 hout).2⟩

end Reached

end ExactCover
