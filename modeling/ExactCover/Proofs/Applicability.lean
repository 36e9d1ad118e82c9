/-
ExactCover.Proofs.Applicability — whatever a strategy sees can be performed.

A deduction places one candidate that is left in an active constraint, or it
eliminates different candidates that are active: its actions are `Performable`.
That is so for all eight strategies in every state, also where their reasoning
rests on a solution that is not unique, and however many constraints and candidates
there are (`Strategy.find_performable`). So a run of the solver is a history like
any other: `Solver.Ran` says what a run can do, and `Ran.reached` what it leaves.
-/
import ExactCover.Proofs.Soundness
import ExactCover.Solver

namespace ExactCover

namespace Matrix

variable {P : Type}

/-- Actions that place a candidate of an active constraint or take out different active ones. -/
inductive Performable (m : Matrix P) : List Action → Prop
  | solve {c : ConstraintId} {h : CellId} :
      c ∈ m.activeConstraints → h ∈ m.column c → Performable m [.solve h]
  | eliminate {hs : List CellId} : m.AllActive hs → Performable m (hs.map .eliminate)

section Performable

variable {m : Matrix P} {h : CellId} {c : ConstraintId}

theorem Coherent.active_of_column (hm : m.Coherent) (hc : c ∈ m.activeConstraints)
    (hh : h ∈ m.column c) : m.isCandidateActive (m.candidateOf h) = true := by
  obtain ⟨hcon, -, hu⟩ := hm.mem_activeConstraints.mp hc
  exact ((hm.mem_column_iff hcon hu).mp hh).2

theorem Performable.allAllowed {as : List Action} (hm : m.Coherent) (h : m.Performable as) :
    Action.AllAllowed m as := by
  cases h with
  | solve hc hh => exact ⟨hm.active_of_column hc hh, trivial⟩
  | eliminate hx => exact hx.allAllowed hm

/-- Common conflicts are active, whatever the order of their keys. -/
theorem Coherent.active_of_commonConflicts (hm : m.Coherent) {members : List CandidateId}
    (hh : h ∈ m.commonConflicts members) : m.isCandidateActive (m.candidateOf h) = true := by
  obtain ⟨r, hr, rfl⟩ := List.mem_map.mp hh
  have ha := hm.mem_activeCandidates.mp (List.mem_filter.mp hr).1
  rw [hm.candidateOf_firstCell ha]
  exact ha

theorem Coherent.allActive_distinct {cells : List CellId}
    (hc : ∀ h ∈ cells, m.isCandidateActive (m.candidateOf h) = true) :
    m.AllActive (m.distinct cells) :=
  ⟨m.nodup_distinct cells, fun h hh => hc h (mem_of_mem_distinct hh)⟩

/-- The distinct common conflicts of several lists of members can be eliminated. -/
theorem Coherent.allActive_conflicts (hm : m.Coherent) {cells : List CellId}
    (hc : ∀ h ∈ cells, ∃ members, h ∈ m.commonConflicts members) :
    m.AllActive (m.distinct cells) := by
  refine Coherent.allActive_distinct fun h hh => ?_
  obtain ⟨members, hmem⟩ := hc h hh
  exact hm.active_of_commonConflicts hmem

theorem minus_sublist (m : Matrix P) (a b : ConstraintId) : (m.minus a b).Sublist (m.column a) := by
  have hcells : (m.joinColumns a b).map (·.1) = m.column a := map_fst_joinOn ..
  rw [← hcells]
  exact List.filter_sublist.map _

end Performable

end Matrix

namespace Strategy

open ExactCover.Matrix

variable {P : Type} {m : Matrix P} {d : Deduction}

theorem findSingle_performable (h : findSingle m = some d) : m.Performable d.actions := by
  unfold findSingle at h
  split at h
  · cases h
  · next c hfind =>
    split at h
    · cases h
    · next x rest hcol =>
      cases h
      exact .solve (List.mem_of_find?_eq_some hfind) (hcol ▸ List.mem_cons_self)

theorem lockedSet_performable (hm : m.Coherent) (inner : ConstraintId) {outer : ConstraintId}
    (ho : outer ∈ m.activeConstraints) : m.Performable (lockedSet m inner outer).actions := by
  have hsub := m.minus_sublist outer inner
  have hcon := (hm.mem_activeConstraints.mp ho).1
  exact .eliminate ⟨(hm.column_candidates_nodup hcon).sublist (hsub.map m.candidateOf),
    fun h hh => hm.active_of_column ho (hsub.subset hh)⟩

theorem findLockedSet_performable (hm : m.Coherent) (h : findLockedSet m = some d) :
    m.Performable d.actions := by
  obtain ⟨a, b, hab, hd⟩ := firstPair_some h
  obtain ⟨inner, outer, hperm, -, rfl⟩ := checkLocked_some hd
  exact lockedSet_performable hm inner
    ((hab.trans List.filter_sublist).subset (hperm.subset (by simp)))

theorem findNakedPair_performable (hm : m.Coherent) (h : findNakedPair m = some d) :
    m.Performable d.actions := by
  obtain ⟨a, b, -, hd⟩ := firstPair_some h
  obtain ⟨-, x, y, -, -, -, -, hactions⟩ := checkPair_some hd
  rw [hactions]
  refine .eliminate (hm.allActive_conflicts fun h hh => ?_)
  obtain ⟨matched, -, hh⟩ := List.mem_flatMap.mp hh
  rcases List.mem_append.mp hh with hh | hh
  · exact ⟨_, hh⟩
  · exact ⟨_, hh⟩

theorem findWing_performable (hm : m.Coherent) {cellsOnly : Bool}
    (h : findWing m cellsOnly = some d) : m.Performable d.actions := by
  obtain ⟨a, b, c, -, -, -, -, hd⟩ := firstTriple_some h
  obtain ⟨-, -, -, -, -, -, hinge, v, w, x, y, -, -, -, -, -, hd⟩ := checkWing_some hd
  obtain ⟨-, -, hactions⟩ := checkPincers_some hd
  rw [hactions]
  exact .eliminate (hm.allActive_conflicts fun h hh => ⟨_, hh⟩)

theorem findNakedTriple_performable (hm : m.Coherent) (h : findNakedTriple m = some d) :
    m.Performable d.actions := by
  obtain ⟨a, b, c, -, -, -, -, hd⟩ := firstTriple_some h
  obtain ⟨p, -, hd⟩ := List.exists_of_findSome?_eq_some hd
  obtain ⟨q, -, hd⟩ := List.exists_of_findSome?_eq_some hd
  obtain ⟨-, -, -, hactions⟩ := checkLines_some hd
  rw [hactions]
  refine .eliminate (hm.allActive_conflicts fun h hh => ?_)
  obtain ⟨line, -, hh⟩ := List.mem_flatMap.mp hh
  exact ⟨_, hh⟩

/-- Three corners, a chain of them, and two cells of a fourth constraint that close it. Any chain of
the corners has the same six candidates, so which of them the two cells are kept apart from
makes no difference. -/
structure IsRectangle (m : Matrix P) (a b c : Bivalue) (fourth : ConstraintId) (k : Chain)
    (x y : CellId) (extra : CellPair) : Prop where
  corners : ∀ v ∈ [a, b, c], v.Of m
  disjoint : m.intersects a.constraint b.constraint = false ∧
    m.intersects a.constraint c.constraint = false ∧
    m.intersects b.constraint c.constraint = false
  fourth_active : fourth ∈ m.activeConstraints
  chain : k ∈ chains m a b c
  cells : [x, y].Sublist (m.column fourth)
  outside : ∃ k' ∈ chains m a b c, ∀ h ∈ [x, y], m.candidateOf h ∉ k'.cells.map m.candidateOf
  closed : k.closing? m x y = some extra

theorem checkRectangle_some {cellsOnly : Bool} {wide : List ConstraintId} {a b c : ConstraintId}
    (hcorners : ∀ x ∈ [a, b, c], x ∈ m.activeConstraints) (hab : m.intersects a b = false)
    (hac : m.intersects a c = false) (hbc : m.intersects b c = false)
    (hwide : ∀ x ∈ wide, x ∈ m.activeConstraints)
    (h : checkRectangle m cellsOnly wide a b c = some d) :
    ∃ (u v w : Bivalue) (fourth : ConstraintId) (k : Chain) (x y : CellId) (extra : CellPair),
      IsRectangle m u v w fourth k x y extra ∧
        [u.constraint, v.constraint, w.constraint] = [a, b, c] ∧ fourth ∈ wide ∧
        d = rectangle m cellsOnly k.corners fourth x y extra := by
  unfold checkRectangle at h
  split at h
  · next p q r hp hq hr =>
    split at h
    · cases h
    · next k' ks hchains =>
      obtain ⟨fourth, hfourth, h⟩ := List.exists_of_findSome?_eq_some h
      obtain ⟨k, hk, h⟩ := List.exists_of_findSome?_eq_some h
      obtain ⟨x, y, hxy, h⟩ := firstPair_some h
      obtain ⟨extra, hclosed, rfl⟩ := Option.map_eq_some_iff.mp h
      refine ⟨⟨a, p⟩, ⟨b, q⟩, ⟨c, r⟩, fourth, k, x, y, extra, ?_, rfl, hfourth, rfl⟩
      refine
        { corners := fun v hv => ?_, disjoint := ⟨hab, hac, hbc⟩
          fourth_active := hwide fourth hfourth, chain := hchains ▸ hk
          cells := hxy.trans List.filter_sublist
          outside := ⟨k', hchains ▸ List.mem_cons_self, fun h hh => ?_⟩, closed := hclosed }
      · simp only [List.mem_cons, List.not_mem_nil, or_false] at hv
        rcases hv with rfl | rfl | rfl
        · exact ⟨hcorners a (by simp), twoCells?_some hp⟩
        · exact ⟨hcorners b (by simp), twoCells?_some hq⟩
        · exact ⟨hcorners c (by simp), twoCells?_some hr⟩
      · simpa using (List.mem_filter.mp (hxy.subset hh)).2
  · cases h

theorem findRectangle_some {cellsOnly : Bool} (h : findRectangle m cellsOnly = some d) :
    ∃ (u v w : Bivalue) (fourth : ConstraintId) (k : Chain) (x y : CellId) (extra : CellPair),
      IsRectangle m u v w fourth k x y extra ∧
        (∀ c ∈ [u.constraint, v.constraint, w.constraint], c ∈ bivalueConstraints m cellsOnly) ∧
        2 < m.len fourth ∧ d = rectangle m cellsOnly k.corners fourth x y extra := by
  unfold findRectangle at h
  split at h
  · cases h
  · obtain ⟨a, b, c, hsub, hab, hac, hbc, hd⟩ := firstTriple_some h
    simp only [Bool.not_eq_true'] at hab hac hbc
    obtain ⟨u, v, w, fourth, k, x, y, extra, hrect, hthree, hfourth, rfl⟩ :=
      checkRectangle_some
        (fun x hx => mem_activeConstraintsOfLen (List.mem_filter.mp (hsub.subset hx)).1) hab hac hbc
        (fun x hx => (List.mem_filter.mp hx).1) hd
    refine ⟨u, v, w, fourth, k, x, y, extra, hrect, hthree ▸ fun c hc => hsub.subset hc, ?_, rfl⟩
    simpa using (List.mem_filter.mp hfourth).2

theorem findRectangle_performable (hm : m.Coherent) {cellsOnly : Bool}
    (h : findRectangle m cellsOnly = some d) : m.Performable d.actions := by
  obtain ⟨u, v, w, fourth, k, x, y, extra, hrect, -, -, rfl⟩ := findRectangle_some h
  refine .eliminate (Coherent.allActive_distinct fun h hh => ?_)
  exact hm.active_of_column hrect.fourth_active (hrect.cells.subset hh)

/-- Whatever a strategy sees can be performed. -/
theorem find_performable (hm : m.Coherent) {s : Strategy} (h : s.find m = some d) :
    m.Performable d.actions := by
  cases s with
  | singles => exact findSingle_performable h
  | lockedSets => exact findLockedSet_performable hm h
  | nakedPairs => exact findNakedPair_performable hm h
  | yWing => exact findWing_performable hm h
  | nakedTriples => exact findNakedTriple_performable hm h
  | uniqueRectangle => exact findRectangle_performable hm h
  | hiddenUniqueRectangle => exact findRectangle_performable hm h
  | xyWing => exact findWing_performable hm h

end Strategy

/-! ## Runs are histories -/

namespace Solver

variable {P : Type} {strategies : List Strategy}

theorem step_applicable {m : Matrix P} (hm : m.Coherent) {d : Deduction}
    (h : step strategies m = some d) : d.Applicable m := by
  obtain ⟨s, -, hfind⟩ := List.exists_of_findSome?_eq_some h
  exact (Strategy.find_performable hm hfind).allAllowed hm

/-- All that a run of at most so many deductions can do, and why: it ends where it starts, or it
applies a deduction and goes on from there. -/
inductive Ran (strategies : List Strategy) : Nat → Matrix P → Matrix P × Report → Prop
  | blocked {n : Nat} {m : Matrix P} :
      m.isBlocked = true → Ran strategies n m (halt m .blocked)
  | solved {n : Nat} {m : Matrix P} :
      m.isSolved = true → Ran strategies n m (halt m .solved)
  | stuck {n : Nat} {m : Matrix P} :
      step strategies m = none → Ran strategies n m (halt m .stuck)
  /-- Something is seen, but no deduction is allowed any more. -/
  | spent {m : Matrix P} :
      m.isBlocked ≠ true → m.isSolved ≠ true → Ran strategies 0 m (halt m .stuck)
  | apply {n : Nat} {m : Matrix P} {d : Deduction} {out : Matrix P × Report} :
      step strategies m = some d → Ran strategies n (d.apply m).1 out →
      Ran strategies (n + 1) m
        (out.1, { out.2 with
          deductions := d :: out.2.deductions
          changes := (d.apply m).2 ++ out.2.changes })

theorem ran_run (strategies : List Strategy) (n : Nat) (m : Matrix P) :
    Ran strategies n m (run strategies n m) := by
  induction n generalizing m with
  | zero =>
    unfold run
    split
    · next hblocked => exact .blocked hblocked
    · next hblocked =>
      split
      · next hsolved => exact .solved hsolved
      · next hsolved =>
        split
        · next hnone => exact .stuck hnone
        · exact .spent hblocked hsolved
        · next heq => cases heq
  | succ n ih =>
    unfold run
    split
    · next hblocked => exact .blocked hblocked
    · split
      · next hsolved => exact .solved hsolved
      · split
        · next hnone => exact .stuck hnone
        · next heq => cases heq
        · next d n' hsome heq =>
          cases heq
          exact .apply hsome (ih (d.apply m).1)

/-- The deductions of a run are the last entries of the history of the matrix it leaves, and a run
that ends as solved leaves nothing to satisfy. -/
theorem Ran.reached {es : List Entry} {n : Nat} {m : Matrix P} {out : Matrix P × Report}
    (hr : Ran strategies n m out) (h : Reached es m) :
    Reached (out.2.deductions.reverse.map .deduction ++ es) out.1 ∧
      (out.2.outcome = .solved → out.1.isSolved = true) := by
  induction hr generalizing es with
  | blocked _ => exact ⟨h, nofun⟩
  | solved hsolved => exact ⟨h, fun _ => hsolved⟩
  | stuck _ => exact ⟨h, nofun⟩
  | spent _ _ => exact ⟨h, nofun⟩
  | apply hstep _ ih =>
    obtain ⟨hreached, hsolved⟩ := ih (h.apply (step_applicable h.coherent hstep))
    refine ⟨?_, hsolved⟩
    simpa only [List.reverse_cons, List.map_append, List.map_cons, List.map_nil,
      List.append_assoc, List.singleton_append] using hreached

/-- Solving is a run that may have as many deductions as there are active candidates. -/
theorem solve_ran {m n : Matrix P} {report : Report}
    (hok : solve strategies m = .ok (n, report)) :
    Ran strategies m.activeCandidateCount m (n, report) := by
  unfold solve at hok
  split at hok
  · cases hok
  · have hran := ran_run strategies m.activeCandidateCount m
    rwa [Except.ok.inj hok] at hran

theorem solve_reached {es : List Entry} {m n : Matrix P} {report : Report} (h : Reached es m)
    (hok : solve strategies m = .ok (n, report)) :
    Reached (report.deductions.reverse.map .deduction ++ es) n ∧
      (report.outcome = .solved → n.isSolved = true) :=
  (solve_ran hok).reached h

end Solver

end ExactCover
