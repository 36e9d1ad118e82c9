/-
ExactCover.Proofs.Threads — the three kinds of circle of a matrix, each with its
flags and counts.

The active constraints, the active candidates and the cells of every constraint
are each threaded on circles of a ring, and each has a redundant record beside
it: a flag, a count. `ConstraintsThreaded`, `CandidatesThreaded` and
`ColumnsThreaded` say that links and record agree, one kind at a time and without
a word about the other two.

For each kind there are three facts about taking one element out: the thread is
kept, the view loses that element and nothing else, and putting it back leaves no
trace. Cells come in lists as well (`ColumnsThreaded.unlinkCells` and its kin),
because a candidate leaves several columns at once.
-/
import ExactCover.Ring.Circle
import ExactCover.Matrix.Cover
import ExactCover.Proofs.Board

namespace ExactCover.Matrix

variable {P : Type}

/-- The primary constraints that are not covered, in ascending order, by their flags. -/
def openConstraints (m : Matrix P) : List ConstraintId :=
  (List.range' 1 m.constraintCount).filter m.isConstraintActive

/-- The candidates that are possible, in ascending order, by their flags. -/
def openCandidates (m : Matrix P) : List CandidateId :=
  (List.range' 1 m.candidateCount).filter m.isCandidateActive

/-- The active constraints are on one circle, and every secondary constraint stands alone. -/
structure ConstraintsThreaded (m : Matrix P) : Prop where
  circle : m.links.constraints.Circle 0 m.openConstraints
  alone : ∀ c, m.HasConstraint c → m.isPrimary c = false → m.links.constraints.Circle c []
  covered_size : m.links.covered.size = m.board.constraints.size
  count : m.links.activeConstraints = ⟨m.openConstraints.length⟩

/-- The active candidates are on one circle. -/
structure CandidatesThreaded (m : Matrix P) : Prop where
  root : m.isCandidateActive 0 = false
  circle : m.links.candidates.Circle 0 m.openCandidates
  active_size : m.links.active.size = m.board.candidates.size
  count : m.links.activeCandidates = ⟨m.openCandidates.length⟩

/-- Every constraint has a circle of some of its cells, in their order, behind its header. -/
structure ColumnsThreaded (m : Matrix P) : Prop where
  circle : ∀ c, m.HasConstraint c → m.links.columns.Circle (m.head c) (m.column c)
  sublist : ∀ c, m.HasConstraint c → (m.column c).Sublist (m.cellsOf c)
  len : ∀ c, m.HasConstraint c → m.links.lens[c]? = some ⟨(m.column c).length⟩

/-! ## Constraints -/

theorem mem_openConstraints {m : Matrix P} {c : ConstraintId} :
    c ∈ m.openConstraints ↔ m.HasConstraint c ∧ m.isConstraintActive c = true := by
  simp only [openConstraints, List.mem_filter, List.mem_range'_1, constraintCount, HasConstraint]
  constructor
  · intro h'
    obtain ⟨hc, ha⟩ := h'
    exact ⟨by omega, ha⟩
  · intro h'
    obtain ⟨hc, ha⟩ := h'
    exact ⟨by omega, ha⟩

theorem isCovered_unlinkConstraint {m : Matrix P} {c : ConstraintId}
    (hc : c < m.links.covered.size) (d : ConstraintId) :
    (m.unlinkConstraint c).isCovered d = (m.isCovered d || decide (d = c)) := by
  simp only [isCovered, unlinkConstraint, Links.unlinkConstraint, Array.getD_eq_getD_getElem?,
    Array.getElem?_setIfInBounds]
  by_cases h : c = d
  · subst h
    simp [hc]
  · simp [h, Ne.symm h]

namespace ConstraintsThreaded

variable {m : Matrix P} {c : ConstraintId}

theorem activeConstraints_eq (h : m.ConstraintsThreaded) :
    m.activeConstraints = m.openConstraints := h.circle.forward_eq

/-- Whether constraints are threaded depends on their own records alone. -/
theorem congr {n : Matrix P} (h : m.ConstraintsThreaded)
    (hb : n.board.constraints = m.board.constraints)
    (hr : n.links.constraints = m.links.constraints) (ha : n.links.covered = m.links.covered)
    (hc : n.links.activeConstraints = m.links.activeConstraints) : n.ConstraintsThreaded := by
  have hprimary : n.isPrimary = m.isPrimary := by
    funext c; simp only [isPrimary, constraint, hb]
  have hopen : n.openConstraints = m.openConstraints := by
    have hflag : n.isConstraintActive = m.isConstraintActive := by
      funext c; simp only [isConstraintActive, isCovered, hprimary, ha]
    simp only [openConstraints, constraintCount, hb, hflag]
  refine ⟨?_, fun c hk hp => ?_, ?_, ?_⟩
  · rw [hr, hopen]
    exact h.circle
  · rw [HasConstraint, hb] at hk
    rw [hprimary] at hp
    rw [hr]
    exact h.alone c hk hp
  · rw [ha, hb]
    exact h.covered_size
  · rw [hc, hopen]
    exact h.count

theorem lt_covered (h : m.ConstraintsThreaded) (hc : m.HasConstraint c) :
    c < m.links.covered.size := by
  rw [h.covered_size]
  exact hc.2

/-- Covering a constraint takes it off the active ones. -/
theorem openConstraints_unlinkConstraint (h : m.ConstraintsThreaded) (hc : m.HasConstraint c) :
    (m.unlinkConstraint c).openConstraints = m.openConstraints.filter (· ≠ c) := by
  unfold openConstraints
  rw [List.filter_filter]
  refine List.filter_congr fun d _ => ?_
  have hcov := isCovered_unlinkConstraint (h.lt_covered hc) d
  show (m.isPrimary d && !(m.unlinkConstraint c).isCovered d) = _
  rw [hcov]
  by_cases hd : d = c
  · simp [hd]
  · simp [hd, isConstraintActive]

/-- A secondary constraint is on no list, so covering it changes none. -/
theorem not_mem_of_secondary (hp : m.isPrimary c = false) : c ∉ m.openConstraints := by
  intro hc
  have := (mem_openConstraints.mp hc).2
  simp [isConstraintActive, hp] at this

theorem links_unlinkConstraint_secondary (h : m.ConstraintsThreaded) (hc : m.HasConstraint c)
    (hp : m.isPrimary c = false) :
    (m.unlinkConstraint c).links.constraints = m.links.constraints :=
  (h.alone c hc hp).unlink_alone

theorem unlinkConstraint (h : m.ConstraintsThreaded) (hc : m.HasConstraint c)
    (hu : m.isCovered c = false) : (m.unlinkConstraint c).ConstraintsThreaded := by
  have hopen := h.openConstraints_unlinkConstraint hc
  cases hp : m.isPrimary c with
  | false =>
    have hsame : (m.unlinkConstraint c).openConstraints = m.openConstraints := by
      rw [hopen]
      refine List.filter_eq_self.mpr fun d hd => ?_
      have : d ≠ c := fun e => not_mem_of_secondary hp (e ▸ hd)
      simp [this]
    refine ⟨?_, ?_, ?_, ?_⟩
    · rw [hsame, h.links_unlinkConstraint_secondary hc hp]
      exact h.circle
    · rw [h.links_unlinkConstraint_secondary hc hp]
      exact h.alone
    · simpa [Matrix.unlinkConstraint, Links.unlinkConstraint] using h.covered_size
    · rw [hsame, ← h.count]
      simp [Matrix.unlinkConstraint, Links.unlinkConstraint, hp]
  | true =>
    have hmem : c ∈ m.openConstraints :=
      mem_openConstraints.mpr ⟨hc, by simp [isConstraintActive, hp, hu]⟩
    refine ⟨?_, ?_, ?_, ?_⟩
    · rw [hopen]
      exact h.circle.unlink_filter hmem
    · intro d hd (hpd : m.isPrimary d = false)
      refine (h.alone d hd hpd).unlink_of_disjoint h.circle hmem ?_
      intro x hx hxd
      obtain rfl : x = d := by simpa using hxd
      rcases List.mem_cons.mp hx with rfl | hx
      · exact absurd hd.1 (Nat.lt_irrefl 0)
      · exact not_mem_of_secondary hpd hx
    · simpa [Matrix.unlinkConstraint, Links.unlinkConstraint] using h.covered_size
    · rw [hopen]
      show (if m.isPrimary c then m.links.activeConstraints.down else _) = _
      rw [if_pos hp, h.count, ← h.circle.length_filter_add_one hmem]
      simp [Tally.down]

/-- Uncovering a constraint right after covering it leaves no trace. -/
theorem relinkConstraint_unlinkConstraint (h : m.ConstraintsThreaded) (hc : m.HasConstraint c)
    (hu : m.isCovered c = false) : (m.unlinkConstraint c).relinkConstraint c = m := by
  have hring : (m.links.constraints.unlink c).relink c = m.links.constraints := by
    cases hp : m.isPrimary c with
    | false => rw [(h.alone c hc hp).unlink_alone, (h.alone c hc hp).relink_alone]
    | true =>
      refine h.circle.relink_unlink_of_mem (mem_openConstraints.mpr ⟨hc, ?_⟩)
      simp [isConstraintActive, hp, hu]
  have hflag : (m.links.covered.setIfInBounds c true).setIfInBounds c false = m.links.covered := by
    rw [Array.setIfInBounds_setIfInBounds]
    have hlt := h.lt_covered hc
    have hget : m.links.covered[c] = false := by
      simpa [isCovered, Array.getD_eq_getD_getElem?, hlt] using hu
    rw [Array.setIfInBounds, dif_pos hlt, ← hget, Array.set_getElem_self]
  have hcount : (if m.isPrimary c
      then (if m.isPrimary c then m.links.activeConstraints.down else m.links.activeConstraints).up
      else if m.isPrimary c then m.links.activeConstraints.down else m.links.activeConstraints)
      = m.links.activeConstraints := by
    cases m.isPrimary c <;> simp
  show { m with links := { m.links with
    constraints := (m.links.constraints.unlink c).relink c
    covered := (m.links.covered.setIfInBounds c true).setIfInBounds c false
    activeConstraints := _ } } = m
  rw [hring, hflag]
  exact congrArg (fun t => { m with links := { m.links with activeConstraints := t } }) hcount

end ConstraintsThreaded

/-! ## Candidates -/

theorem mem_openCandidates {m : Matrix P} {r : CandidateId} :
    r ∈ m.openCandidates ↔ m.HasCandidate r ∧ m.isCandidateActive r = true := by
  simp only [openCandidates, List.mem_filter, List.mem_range'_1, candidateCount, HasCandidate]
  constructor
  · intro h'
    obtain ⟨hr, ha⟩ := h'
    exact ⟨by omega, ha⟩
  · intro h'
    obtain ⟨hr, ha⟩ := h'
    exact ⟨by omega, ha⟩

theorem isCandidateActive_unlinkCandidate {m : Matrix P} {r : CandidateId}
    (hr : r < m.links.active.size) (q : CandidateId) :
    (m.unlinkCandidate r).isCandidateActive q = (m.isCandidateActive q && decide (q ≠ r)) := by
  simp only [isCandidateActive, unlinkCandidate, Links.unlinkCandidate,
    Array.getD_eq_getD_getElem?, Array.getElem?_setIfInBounds]
  by_cases h : r = q
  · subst h
    simp [hr]
  · simp [h, Ne.symm h]

namespace CandidatesThreaded

variable {m : Matrix P} {r : CandidateId}

/-- Only candidates are active. -/
theorem hasCandidate (h : m.CandidatesThreaded) (ha : m.isCandidateActive r = true) :
    m.HasCandidate r := by
  constructor
  · refine Nat.pos_of_ne_zero ?_
    rintro rfl
    rw [h.root] at ha
    cases ha
  · rw [← h.active_size]
    refine Nat.lt_of_not_le fun hge => ?_
    simp [isCandidateActive, Array.getD_eq_getD_getElem?, Array.getElem?_eq_none hge] at ha

/-- Whether candidates are threaded depends on their own records alone. -/
theorem congr {n : Matrix P} (h : m.CandidatesThreaded) (hb : n.board = m.board)
    (hr : n.links.candidates = m.links.candidates) (ha : n.links.active = m.links.active)
    (hc : n.links.activeCandidates = m.links.activeCandidates) : n.CandidatesThreaded := by
  have hflag : n.isCandidateActive = m.isCandidateActive := by
    funext q; simp only [isCandidateActive, ha]
  have hopen : n.openCandidates = m.openCandidates := by
    simp only [openCandidates, candidateCount, hb, hflag]
  refine ⟨?_, ?_, ?_, ?_⟩
  · rw [hflag]
    exact h.root
  · rw [hr, hopen]
    exact h.circle
  · rw [ha, hb]
    exact h.active_size
  · rw [hc, hopen]
    exact h.count

theorem activeCandidates_eq (h : m.CandidatesThreaded) :
    m.activeCandidates = m.openCandidates := h.circle.forward_eq

theorem lt_active (h : m.CandidatesThreaded) (hr : m.HasCandidate r) :
    r < m.links.active.size := by
  rw [h.active_size]
  exact hr.2

theorem openCandidates_unlinkCandidate (h : m.CandidatesThreaded) (hr : m.HasCandidate r) :
    (m.unlinkCandidate r).openCandidates = m.openCandidates.filter (· ≠ r) := by
  unfold openCandidates
  rw [List.filter_filter]
  refine List.filter_congr fun q _ => ?_
  rw [isCandidateActive_unlinkCandidate (h.lt_active hr) q, Bool.and_comm]

theorem unlinkCandidate (h : m.CandidatesThreaded) (hr : m.HasCandidate r)
    (ha : m.isCandidateActive r = true) : (m.unlinkCandidate r).CandidatesThreaded := by
  have hopen := h.openCandidates_unlinkCandidate hr
  have hmem : r ∈ m.openCandidates := mem_openCandidates.mpr ⟨hr, ha⟩
  refine ⟨?_, ?_, ?_, ?_⟩
  · rw [isCandidateActive_unlinkCandidate (h.lt_active hr), h.root, Bool.false_and]
  · rw [hopen]
    exact h.circle.unlink_filter hmem
  · simpa [Matrix.unlinkCandidate, Links.unlinkCandidate] using h.active_size
  · show m.links.activeCandidates.down = _
    rw [hopen, h.count, ← h.circle.length_filter_add_one hmem]
    simp [Tally.down]

/-- Putting a candidate back right after taking it off leaves no trace. -/
theorem relinkCandidate_unlinkCandidate (h : m.CandidatesThreaded) (hr : m.HasCandidate r)
    (ha : m.isCandidateActive r = true) : (m.unlinkCandidate r).relinkCandidate r = m := by
  have hring : (m.links.candidates.unlink r).relink r = m.links.candidates :=
    h.circle.relink_unlink_of_mem (mem_openCandidates.mpr ⟨hr, ha⟩)
  have hflag : (m.links.active.setIfInBounds r false).setIfInBounds r true = m.links.active := by
    rw [Array.setIfInBounds_setIfInBounds]
    have hlt := h.lt_active hr
    have hget : m.links.active[r] = true := by
      simpa [isCandidateActive, Array.getD_eq_getD_getElem?, hlt] using ha
    rw [Array.setIfInBounds, dif_pos hlt, ← hget, Array.set_getElem_self]
  show { m with links := { m.links with
    candidates := (m.links.candidates.unlink r).relink r
    active := (m.links.active.setIfInBounds r false).setIfInBounds r true
    activeCandidates := m.links.activeCandidates.down.up } } = m
  rw [hring, hflag, Tally.up_down]

end CandidatesThreaded

/-! ## Columns -/

/-- The cell is linked in the column of its constraint. -/
def IsLinked (m : Matrix P) (x : CellId) : Prop :=
  m.HasConstraint (m.constraintOf x) ∧ x ∈ m.column (m.constraintOf x)

namespace ColumnsThreaded

variable {m : Matrix P} {c : ConstraintId} {x : CellId}

theorem mem_cellsOf (h : m.ColumnsThreaded) (hc : m.HasConstraint c) (hx : x ∈ m.column c) :
    x ∈ m.cellsOf c := (h.sublist c hc).subset hx

theorem constraintOf_of_mem (h : m.ColumnsThreaded) (hc : m.HasConstraint c)
    (hx : x ∈ m.column c) : m.constraintOf x = c :=
  (Matrix.mem_cellsOf.mp (h.mem_cellsOf hc hx)).2

/-- All positions of a column belong to its constraint, the header included. -/
theorem constraintOf_of_mem_circle (hl : m.Laid) (h : m.ColumnsThreaded)
    (hc : m.HasConstraint c) (hx : x ∈ m.head c :: m.column c) : m.constraintOf x = c := by
  rcases List.mem_cons.mp hx with rfl | hx
  · exact hl.constraintOf_head hc
  · exact h.constraintOf_of_mem hc hx

/-- Taking a cell out changes the circle of its constraint and no other. -/
theorem circle_unlink (hl : m.Laid) (h : m.ColumnsThreaded) (hx : m.IsLinked x)
    (hc : m.HasConstraint c) :
    (m.links.columns.unlink x).Circle (m.head c) ((m.column c).filter (· ≠ x)) := by
  by_cases hxc : m.constraintOf x = c
  · subst hxc
    exact (h.circle _ hc).unlink_filter hx.2
  · have hsame : (m.column c).filter (· ≠ x) = m.column c := by
      refine List.filter_eq_self.mpr fun y hy => ?_
      have : y ≠ x := fun e => hxc (e ▸ h.constraintOf_of_mem hc hy)
      simp [this]
    rw [hsame]
    refine (h.circle c hc).unlink_of_disjoint (h.circle _ hx.1) hx.2 ?_
    intro y hy hyc
    have h1 := constraintOf_of_mem_circle hl h hx.1 hy
    exact hxc (h1.symm.trans (constraintOf_of_mem_circle hl h hc hyc))

/-- Without a cell a column is what it was, without that cell. -/
theorem column_unlinkCell (hl : m.Laid) (h : m.ColumnsThreaded) (hx : m.IsLinked x)
    (hc : m.HasConstraint c) : (m.unlinkCell x).column c = (m.column c).filter (· ≠ x) :=
  (circle_unlink hl h hx hc).forward_eq

theorem unlinkCell (hl : m.Laid) (h : m.ColumnsThreaded) (hx : m.IsLinked x) :
    (m.unlinkCell x).ColumnsThreaded := by
  refine ⟨fun c hc => ?_, fun c hc => ?_, fun c hc => ?_⟩
  · rw [column_unlinkCell hl h hx hc]
    exact circle_unlink hl h hx hc
  · rw [column_unlinkCell hl h hx hc]
    exact (List.filter_sublist (p := fun y => decide (y ≠ x))).trans (h.sublist c hc)
  · rw [column_unlinkCell hl h hx hc]
    show (m.links.lens.modify (m.constraintOf x) Tally.down)[c]? = _
    rw [Array.getElem?_modify, h.len c hc]
    by_cases hxc : m.constraintOf x = c
    · subst hxc
      rw [if_pos rfl, ← (h.circle _ hc).length_filter_add_one hx.2]
      simp [Tally.down]
    · have hsame : (m.column c).filter (· ≠ x) = m.column c := by
        refine List.filter_eq_self.mpr fun y hy => ?_
        have : y ≠ x := fun e => hxc (e ▸ h.constraintOf_of_mem hc hy)
        simp [this]
      rw [if_neg hxc, hsame]

/-- Putting a cell back right after taking it out leaves no trace. -/
theorem relinkCell_unlinkCell (h : m.ColumnsThreaded) (hx : m.IsLinked x) :
    (m.unlinkCell x).relinkCell x = m := by
  have hring : (m.links.columns.unlink x).relink x = m.links.columns :=
    (h.circle _ hx.1).relink_unlink_of_mem hx.2
  have hlens : (m.links.lens.modify (m.constraintOf x) Tally.down).modify (m.constraintOf x)
      Tally.up = m.links.lens := by
    refine Array.ext_getElem? fun i => ?_
    rw [Array.getElem?_modify, Array.getElem?_modify]
    split
    · cases m.links.lens[i]? <;> simp
    · rfl
  show { m with links := { m.links with
    columns := (m.links.columns.unlink x).relink x
    lens := (m.links.lens.modify (m.constraintOf x) Tally.down).modify (m.constraintOf x)
      Tally.up } } = m
  rw [hring, hlens]

/-- Whether columns are threaded depends on their own records alone. -/
theorem congr {n : Matrix P} (h : m.ColumnsThreaded) (hb : n.board = m.board)
    (hr : n.links.columns = m.links.columns) (hn : n.links.lens = m.links.lens) :
    n.ColumnsThreaded := by
  have hcol : n.column = m.column := by
    funext c; simp only [column, hr, head_of_board hb]
  refine ⟨?_, ?_, ?_⟩
  · rw [hasConstraint_of_board hb, head_of_board hb, hr, hcol]
    exact h.circle
  · rw [hasConstraint_of_board hb, cellsOf_of_board hb, hcol]
    exact h.sublist
  · rw [hasConstraint_of_board hb, hn, hcol]
    exact h.len

end ColumnsThreaded

/-! ## Several cells at once -/

/-- Taking cells out of their columns changes the columns and their lengths alone. -/
theorem foldl_unlinkCell_frame (xs : List CellId) (m : Matrix P) :
    xs.foldl unlinkCell m =
      { m with links := { m.links with
          columns := (xs.foldl unlinkCell m).links.columns
          lens := (xs.foldl unlinkCell m).links.lens } } := by
  induction xs generalizing m with
  | nil => rfl
  | cons x xs ih =>
    rw [List.foldl_cons, ih (m.unlinkCell x)]
    rfl

namespace ColumnsThreaded

variable {m : Matrix P} {xs : List CellId}

/-- What is left to be taken out is still linked when the first cell is gone. -/
theorem isLinked_unlinkCell (hl : m.Laid) (h : m.ColumnsThreaded) {x y : CellId}
    (hx : m.IsLinked x) (hy : m.IsLinked y) (hne : y ≠ x) : (m.unlinkCell x).IsLinked y := by
  refine ⟨hy.1, ?_⟩
  have hcol := column_unlinkCell hl h hx hy.1
  show y ∈ (m.unlinkCell x).column (m.constraintOf y)
  rw [hcol, List.mem_filter]
  exact ⟨hy.2, by simpa using hne⟩

/-- Cells that are linked can be taken out one after another; every column loses those that it
had. -/
theorem foldl_unlinkCell (hl : m.Laid) (h : m.ColumnsThreaded) (hd : xs.Nodup)
    (hx : ∀ x ∈ xs, m.IsLinked x) :
    (xs.foldl Matrix.unlinkCell m).ColumnsThreaded ∧
      ∀ c, m.HasConstraint c →
        (xs.foldl Matrix.unlinkCell m).column c = (m.column c).filter (· ∉ xs) := by
  induction xs generalizing m with
  | nil => exact ⟨h, fun c _ => by simp⟩
  | cons x xs ih =>
    obtain ⟨hxd, hd⟩ := List.nodup_cons.mp hd
    have hx0 := hx x List.mem_cons_self
    have hl' : (m.unlinkCell x).Laid := hl.of_board rfl
    have hrest : ∀ y ∈ xs, (m.unlinkCell x).IsLinked y := by
      intro y hy
      have hne : y ≠ x := fun e => hxd (e ▸ hy)
      exact isLinked_unlinkCell hl h hx0 (hx y (List.mem_cons_of_mem x hy)) hne
    obtain ⟨hthread, hcol⟩ := ih hl' (h.unlinkCell hl hx0) hd hrest
    refine ⟨hthread, fun c hc => ?_⟩
    rw [List.foldl_cons, hcol c hc, column_unlinkCell hl h hx0 hc, List.filter_filter]
    refine List.filter_congr fun y _ => ?_
    by_cases hyx : y = x
    · simp [hyx]
    · simp [hyx]

/-- Cells that are put back in the opposite order leave no trace. -/
theorem relink_foldl_unlinkCell (hl : m.Laid) (h : m.ColumnsThreaded) (hd : xs.Nodup)
    (hx : ∀ x ∈ xs, m.IsLinked x) :
    xs.reverse.foldl Matrix.relinkCell (xs.foldl Matrix.unlinkCell m) = m := by
  induction xs generalizing m with
  | nil => rfl
  | cons x xs ih =>
    obtain ⟨hxd, hd⟩ := List.nodup_cons.mp hd
    have hx0 := hx x List.mem_cons_self
    have hl' : (m.unlinkCell x).Laid := hl.of_board rfl
    have hrest : ∀ y ∈ xs, (m.unlinkCell x).IsLinked y := by
      intro y hy
      have hne : y ≠ x := fun e => hxd (e ▸ hy)
      exact isLinked_unlinkCell hl h hx0 (hx y (List.mem_cons_of_mem x hy)) hne
    rw [List.foldl_cons, List.reverse_cons, List.foldl_append,
      ih hl' (h.unlinkCell hl hx0) hd hrest]
    exact h.relinkCell_unlinkCell hx0

end ColumnsThreaded

end ExactCover.Matrix
