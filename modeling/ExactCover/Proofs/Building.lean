/-
ExactCover.Proofs.Building — what additions build satisfies the invariant.

`Built` says that a matrix comes from the empty one by constraints and candidates
that were added successfully, in any order. Nothing is covered in it and every
candidate is active, so every column holds all cells of its constraint: `Fresh`.

What one addition does is shown for any matrix that satisfies the invariant and has
links for just what is on its board (`Sized`), so some of its constraints may be
covered. A constraint can always be added (`Coherent.constrained`). A candidate
always joins the circles (`Threaded.peopled`), but the invariant is kept only where
its constraints are open (`Coherent.peopled`).

A candidate is added cell by cell before it has a record of its own. In between the
columns are in order (`Shelved`) although the last row is not complete, which is why
`Shelved` does not speak about rows.
-/
import ExactCover.Matrix.Build
import ExactCover.Proofs.Coherence

namespace ExactCover.Matrix

variable {P : Type}

/-- The matrix comes from the empty one by successful additions. -/
inductive Built : Matrix P → Prop
  | empty : Built .empty
  | constraint {m n : Matrix P} {name : String} {kind : Kind} {primary : Bool}
      {c : ConstraintId} :
      Built m → m.addConstraint name kind primary = .ok (n, c) → Built n
  | candidate {m n : Matrix P} {name : String} {constraints : List String} {payload : P}
      {r : CandidateId} :
      Built m → m.addCandidate name constraints payload = .ok (n, r) → Built n

/-- Every column holds all cells of its constraint. -/
structure Stocked (m : Matrix P) : Prop where
  before_size : m.links.columns.before.size = m.board.cells.size
  after_size : m.links.columns.after.size = m.board.cells.size
  lens_size : m.links.lens.size = m.board.constraints.size
  head_lt : ∀ c, m.HasConstraint c → m.head c < m.board.cells.size
  cell_head : ∀ c, m.HasConstraint c → m.cell (m.head c) = ⟨c, 0⟩
  circle : ∀ c, m.HasConstraint c → m.links.columns.Circle (m.head c) (m.cellsOf c)
  len : ∀ c, m.HasConstraint c → m.links.lens[c]? = some ⟨(m.cellsOf c).length⟩

/-- Nothing has been taken away yet. -/
structure Fresh (m : Matrix P) : Prop where
  laid : m.Laid
  stocked : m.Stocked
  constraints : m.ConstraintsThreaded
  candidates : m.CandidatesThreaded
  constraints_before : m.links.constraints.before.size = m.board.constraints.size
  constraints_after : m.links.constraints.after.size = m.board.constraints.size
  candidates_before : m.links.candidates.before.size = m.board.candidates.size
  candidates_after : m.links.candidates.after.size = m.board.candidates.size
  uncovered : ∀ c, m.isCovered c = false
  active : ∀ r, m.HasCandidate r → m.isCandidateActive r = true

/-- There are links for just what is on the board. -/
structure Sized (m : Matrix P) : Prop where
  constraints_before : m.links.constraints.before.size = m.board.constraints.size
  constraints_after : m.links.constraints.after.size = m.board.constraints.size
  candidates_before : m.links.candidates.before.size = m.board.candidates.size
  candidates_after : m.links.candidates.after.size = m.board.candidates.size
  columns_before : m.links.columns.before.size = m.board.cells.size
  columns_after : m.links.columns.after.size = m.board.cells.size
  lens : m.links.lens.size = m.board.constraints.size

namespace Sized

variable {m : Matrix P}

theorem constraints_pos (h : m.Sized) (hm : m.ConstraintsThreaded) :
    0 < m.board.constraints.size := by
  rw [← h.constraints_after]
  exact hm.circle.lt_after 0 List.mem_cons_self

theorem candidates_pos (h : m.Sized) (hm : m.CandidatesThreaded) :
    0 < m.board.candidates.size := by
  rw [← h.candidates_after]
  exact hm.circle.lt_after 0 List.mem_cons_self

end Sized

theorem Stocked.column_eq {m : Matrix P} (h : m.Stocked) {c : ConstraintId}
    (hc : m.HasConstraint c) : m.column c = m.cellsOf c := (h.circle c hc).forward_eq

theorem Stocked.columnsThreaded {m : Matrix P} (h : m.Stocked) : m.ColumnsThreaded := by
  refine ⟨fun c hc => ?_, fun c hc => ?_, fun c hc => ?_⟩
  · rw [h.column_eq hc]
    exact h.circle c hc
  · rw [h.column_eq hc]
  · rw [h.column_eq hc]
    exact h.len c hc

namespace Fresh

variable {m : Matrix P}

/-- A fresh matrix satisfies the invariant. -/
theorem coherent (h : m.Fresh) : m.Coherent := by
  refine ⟨⟨h.laid, h.constraints, h.candidates, h.stocked.columnsThreaded, fun c hc _ => ?_⟩,
    fun r c _ _ => h.uncovered c⟩
  rw [h.stocked.column_eq hc, eq_comm, List.filter_eq_self]
  intro x hx
  exact h.active _ (h.laid.row_cell x (mem_cellsOf.mp hx).1).1

theorem sized (h : m.Fresh) : m.Sized where
  constraints_before := h.constraints_before
  constraints_after := h.constraints_after
  candidates_before := h.candidates_before
  candidates_after := h.candidates_after
  columns_before := h.stocked.before_size
  columns_after := h.stocked.after_size
  lens := h.stocked.lens_size

/-- Where everything is still open and active, the invariant says that every column is full. -/
theorem of_coherent (hm : m.Coherent) (hs : m.Sized) (hu : ∀ c, m.isCovered c = false)
    (ha : ∀ r, m.HasCandidate r → m.isCandidateActive r = true) : m.Fresh := by
  have hfull : ∀ c, m.HasConstraint c → m.column c = m.cellsOf c := by
    intro c hc
    rw [hm.open_column c hc (hu c), List.filter_eq_self]
    intro x hx
    exact ha _ (hm.laid.row_cell x (mem_cellsOf.mp hx).1).1
  refine ⟨hm.laid, ⟨hs.columns_before, hs.columns_after, hs.lens, hm.laid.head_lt,
    hm.laid.cell_head, fun c hc => ?_, fun c hc => ?_⟩, hm.constraints, hm.candidates,
    hs.constraints_before, hs.constraints_after, hs.candidates_before, hs.candidates_after,
    hu, ha⟩
  · rw [← hfull c hc]
    exact hm.columns.circle c hc
  · rw [← hfull c hc]
    exact hm.columns.len c hc

theorem constraints_pos (h : m.Fresh) : 0 < m.board.constraints.size :=
  h.sized.constraints_pos h.constraints

theorem candidates_pos (h : m.Fresh) : 0 < m.board.candidates.size :=
  h.sized.candidates_pos h.candidates

theorem empty : (Matrix.empty : Matrix P).Fresh := by
  have hc : ∀ c, ¬ (Matrix.empty : Matrix P).HasConstraint c := by
    intro c h'
    obtain ⟨h0, h1⟩ := h'
    exact absurd h1 (Nat.not_lt.mpr h0)
  have hr : ∀ r, ¬ (Matrix.empty : Matrix P).HasCandidate r := by
    intro r h'
    obtain ⟨h0, h1⟩ := h'
    exact absurd h1 (Nat.not_lt.mpr h0)
  have hcell : ∀ h, (Matrix.empty : Matrix P).candidateOf h = 0 := by
    intro h
    cases h <;> rfl
  have hcircle : Ring.empty.pushAlone.Circle 0 [] := Ring.Circle.pushAlone rfl
  refine ⟨⟨rfl, rfl, ?_, ?_, ?_, ?_, ?_, ?_, ?_⟩, ⟨rfl, rfl, rfl, ?_, ?_, ?_, ?_⟩,
    ⟨hcircle, ?_, rfl, rfl⟩, ⟨rfl, hcircle, rfl, rfl⟩, rfl, rfl, rfl, rfl, ?_, ?_⟩
  · exact fun c h => absurd h (hc c)
  · exact fun c h => absurd h (hc c)
  · exact fun r h => absurd h (hr r)
  · exact fun r h => absurd h (hr r)
  · exact fun r h => absurd h (hr r)
  · exact fun h hh => absurd (hcell h) hh
  · exact fun h _ _ hh => absurd (hcell h) hh
  · exact fun c h => absurd h (hc c)
  · exact fun c h => absurd h (hc c)
  · exact fun c h => absurd h (hc c)
  · exact fun c h => absurd h (hc c)
  · exact fun c h => absurd h (hc c)
  · intro c
    cases c <;> rfl
  · exact fun r h => absurd h (hr r)

end Fresh

/-! ## One more entry

The numbers of constraints and candidates begin with 1, after the sentinel. -/

theorem number_lt_succ {n d : Nat} (hn : 0 < n) :
    0 < d ∧ d < n + 1 ↔ (0 < d ∧ d < n) ∨ d = n := by omega

theorem filter_range'_succ {p q : Nat → Bool} {n : Nat} (h : ∀ i < 1 + n, p i = q i) :
    (List.range' 1 (n + 1)).filter p =
      (List.range' 1 n).filter q ++ if p (1 + n) then [1 + n] else [] := by
  rw [List.range'_1_concat, List.filter_append, List.filter_singleton, cond_eq_ite]
  have hold : (List.range' 1 n).filter p = (List.range' 1 n).filter q :=
    List.filter_congr fun i hi => h i (List.mem_range'_1.mp hi).2
  rw [hold]

theorem getD_push {α : Type} (xs : Array α) (a d : α) (i : Nat) :
    (xs.push a).getD i d = if i = xs.size then a else xs.getD i d := by
  rw [Array.getD_eq_getD_getElem?, Array.getD_eq_getD_getElem?, Array.getElem?_push]
  split
  · rfl
  · rfl

/-! ## Adding a constraint -/

/-- The matrix with one more constraint. -/
def constrained (m : Matrix P) (name : String) (kind : Kind) (primary : Bool) : Matrix P :=
  { m with
    board := m.board.addConstraint name kind primary
    links := m.links.addConstraint primary }

theorem eq_constrained {m n : Matrix P} {name : String} {kind : Kind} {primary : Bool}
    {c : ConstraintId} (h : m.addConstraint name kind primary = .ok (n, c)) :
    n = m.constrained name kind primary := by
  unfold addConstraint at h
  split at h
  · cases h
  · cases h
    rfl

section Constrained

variable {m : Matrix P} (name : String) (kind : Kind) (primary : Bool)

theorem constraint_constrained (d : ConstraintId) :
    (m.constrained name kind primary).constraint d =
      if d = m.board.constraints.size then ⟨name, kind, primary, m.board.cells.size⟩
      else m.constraint d :=
  getD_push _ _ _ _

theorem cell_constrained (h : CellId) :
    (m.constrained name kind primary).cell h =
      if h = m.board.cells.size then ⟨m.board.constraints.size, 0⟩ else m.cell h :=
  getD_push _ _ _ _

theorem isPrimary_constrained (d : ConstraintId) :
    (m.constrained name kind primary).isPrimary d =
      if d = m.board.constraints.size then primary else m.isPrimary d := by
  rw [isPrimary, constraint_constrained]
  split
  · rfl
  · rfl

theorem head_constrained (d : ConstraintId) :
    (m.constrained name kind primary).head d =
      if d = m.board.constraints.size then m.board.cells.size else m.head d := by
  rw [head, constraint_constrained]
  split
  · rfl
  · rfl

/-- The new header belongs to no candidate, like any cell past the last. -/
theorem candidateOf_constrained :
    (m.constrained name kind primary).candidateOf = m.candidateOf := by
  funext h
  rw [candidateOf, cell_constrained]
  split
  · next he =>
    subst he
    refine (Classical.byContradiction fun hne => ?_)
    exact absurd (lt_of_candidateOf_ne_zero (Ne.symm hne)) (Nat.lt_irrefl _)
  · rfl

theorem constraintOf_constrained {h : CellId} (hr : m.candidateOf h ≠ 0) :
    (m.constrained name kind primary).constraintOf h = m.constraintOf h := by
  have hlt := lt_of_candidateOf_ne_zero hr
  rw [constraintOf, cell_constrained, if_neg (Nat.ne_of_lt hlt)]
  rfl

theorem hasConstraint_constrained (hK : 0 < m.board.constraints.size) (d : ConstraintId) :
    (m.constrained name kind primary).HasConstraint d ↔
      m.HasConstraint d ∨ d = m.board.constraints.size := by
  have hsize : (m.constrained name kind primary).board.constraints.size =
      m.board.constraints.size + 1 := Array.size_push ..
  unfold HasConstraint
  rw [hsize]
  exact number_lt_succ hK

theorem ne_of_hasConstraint {d : ConstraintId} (hd : m.HasConstraint d) :
    d ≠ m.board.constraints.size := Nat.ne_of_lt hd.2

theorem cellsOf_constrained (d : ConstraintId) :
    (m.constrained name kind primary).cellsOf d = m.cellsOf d := by
  have hsize : (m.constrained name kind primary).board.cells.size = m.board.cells.size + 1 :=
    Array.size_push ..
  have hlast : m.candidateOf m.board.cells.size = 0 := by
    refine Classical.byContradiction fun hne => ?_
    exact absurd (lt_of_candidateOf_ne_zero hne) (Nat.lt_irrefl _)
  unfold cellsOf
  rw [hsize, List.range_succ, List.filter_append, candidateOf_constrained]
  have hnone : [m.board.cells.size].filter (fun h => m.candidateOf h != 0 &&
      (m.constrained name kind primary).constraintOf h == d) = [] := by
    simp [hlast]
  rw [hnone, List.append_nil]
  refine List.filter_congr fun h _ => ?_
  by_cases hr : m.candidateOf h = 0
  · simp [hr]
  · rw [constraintOf_constrained name kind primary hr]

/-- A constraint that is not there yet has no cells. -/
theorem Laid.cellsOf_new (h : m.Laid) : m.cellsOf m.board.constraints.size = [] := by
  refine List.eq_nil_iff_forall_not_mem.mpr fun x hx => ?_
  obtain ⟨hx0, hxc⟩ := mem_cellsOf.mp hx
  have hlt := (h.hasConstraint_row (h.row_cell x hx0).2).2
  rw [hxc] at hlt
  exact Nat.lt_irrefl _ hlt

theorem Laid.constrained (h : m.Laid) (hK : 0 < m.board.constraints.size) :
    (m.constrained name kind primary).Laid := by
  have hsize : (m.constrained name kind primary).board.cells.size = m.board.cells.size + 1 :=
    Array.size_push ..
  have hcand := candidateOf_constrained (m := m) name kind primary
  have hcon := hasConstraint_constrained (m := m) name kind primary hK
  refine ⟨?_, h.rootCandidate, ?_, ?_, h.size_pos, ?_, ?_, ?_, ?_⟩
  · rw [constraint_constrained, if_neg (Nat.ne_of_lt hK)]
    exact h.rootConstraint
  · intro c hc
    rw [head_constrained, hsize]
    rcases (hcon c).mp hc with hc | rfl
    · rw [if_neg (ne_of_hasConstraint hc)]
      exact Nat.lt_succ_of_lt (h.head_lt c hc)
    · rw [if_pos rfl]
      exact Nat.lt_succ_self _
  · intro c hc
    rw [head_constrained, cell_constrained]
    rcases (hcon c).mp hc with hc | rfl
    · rw [if_neg (ne_of_hasConstraint hc), if_neg (Nat.ne_of_lt (h.head_lt c hc))]
      exact h.cell_head c hc
    · rw [if_pos rfl, if_pos rfl]
  · intro r hr x (hx : x ∈ m.row r)
    have hxr := h.candidateOf_row hx
    have hx0 : m.candidateOf x ≠ 0 := h.candidateOf_ne_zero_iff.mpr (hxr.symm ▸ hx)
    rw [hcand, constraintOf_constrained name kind primary hx0, hcon]
    exact ⟨hxr, Or.inl (h.hasConstraint_row hx)⟩
  · intro r hr
    have hrow : ((m.constrained name kind primary).row r).map
        (m.constrained name kind primary).constraintOf = (m.row r).map m.constraintOf := by
      refine List.map_congr_left fun x (hx : x ∈ m.row r) => ?_
      have hx0 : m.candidateOf x ≠ 0 :=
        h.candidateOf_ne_zero_iff.mpr ((h.candidateOf_row hx).symm ▸ hx)
      exact constraintOf_constrained name kind primary hx0
    rw [hrow]
    exact h.row_ascending r hr
  · rw [hcand]
    exact h.row_cell
  · rw [hcand]
    exact h.in_order

/-- Old candidates keep their constraints. -/
theorem Laid.hits_constrained (h : m.Laid) (r : CandidateId) (d : ConstraintId) :
    (m.constrained name kind primary).Hits r d ↔ m.Hits r d := by
  refine exists_congr fun x => and_congr_right fun (hx : x ∈ m.row r) => ?_
  have hx0 : m.candidateOf x ≠ 0 :=
    h.candidateOf_ne_zero_iff.mpr ((h.candidateOf_row hx).symm ▸ hx)
  rw [constraintOf_constrained name kind primary hx0]

/-- The new constraint is open. -/
theorem isCovered_constrained :
    (m.constrained name kind primary).isCovered = m.isCovered := by
  funext d
  show (m.links.covered.push false).getD d false = m.links.covered.getD d false
  rw [getD_push]
  split
  · next hd =>
    subst hd
    simp
  · rfl

theorem ConstraintsThreaded.isCovered_new (h : m.ConstraintsThreaded) :
    m.isCovered m.board.constraints.size = false := by
  rw [← h.covered_size]
  simp [isCovered]

theorem openConstraints_constrained (hK : 0 < m.board.constraints.size)
    (h : m.ConstraintsThreaded) :
    (m.constrained name kind primary).openConstraints =
      m.openConstraints ++ if primary then [m.board.constraints.size] else [] := by
  have hcount : (m.constrained name kind primary).constraintCount = m.constraintCount + 1 := by
    show (m.board.constraints.push _).size - 1 = m.board.constraints.size - 1 + 1
    rw [Array.size_push]
    omega
  have hlast : 1 + m.constraintCount = m.board.constraints.size := by
    unfold constraintCount
    omega
  have hold : ∀ d < 1 + m.constraintCount,
      (m.constrained name kind primary).isConstraintActive d = m.isConstraintActive d := by
    intro d hd
    rw [isConstraintActive, isConstraintActive, isCovered_constrained,
      isPrimary_constrained, if_neg (Nat.ne_of_lt (hlast ▸ hd))]
  have hnew : (m.constrained name kind primary).isConstraintActive m.board.constraints.size =
      primary := by
    rw [isConstraintActive, isCovered_constrained, isPrimary_constrained, if_pos rfl,
      h.isCovered_new, Bool.not_false, Bool.and_true]
  unfold openConstraints
  rw [hcount, filter_range'_succ hold, hlast, hnew]

/-- A secondary constraint that was there before stands alone still. -/
theorem ConstraintsThreaded.alone_constrained (h : m.ConstraintsThreaded) (hs : m.Sized)
    {d : ConstraintId} (hd : m.HasConstraint d) (hp : m.isPrimary d = false) :
    (m.constrained name kind primary).links.constraints.Circle d [] := by
  have hsizes : m.links.constraints.before.size = m.links.constraints.after.size :=
    hs.constraints_before.trans hs.constraints_after.symm
  have halone := h.alone d hd hp
  cases primary with
  | false => exact halone.pushAlone_of_apart
  | true =>
    refine halone.pushBefore_of_apart hsizes ?_ ?_
    · intro h0
      rw [List.mem_singleton] at h0
      exact Nat.ne_of_lt hd.1 h0
    · intro hprev
      rw [List.mem_singleton] at hprev
      have hmem := h.circle.prev_sentinel_mem
      rw [hprev] at hmem
      rcases List.mem_cons.mp hmem with h0 | hmem
      · exact Nat.ne_of_gt hd.1 h0
      · exact ConstraintsThreaded.not_mem_of_secondary hp hmem

theorem ConstraintsThreaded.constrained (h : m.ConstraintsThreaded) (hs : m.Sized) :
    (m.constrained name kind primary).ConstraintsThreaded := by
  have hK := hs.constraints_pos h
  have hopen := openConstraints_constrained (m := m) name kind primary hK h
  have hcon := hasConstraint_constrained (m := m) name kind primary hK
  have hsizes : m.links.constraints.before.size = m.links.constraints.after.size :=
    hs.constraints_before.trans hs.constraints_after.symm
  have hnew : m.links.constraints.size = m.board.constraints.size := hs.constraints_after
  refine ⟨?_, fun d hd hp => ?_, ?_, ?_⟩
  · rw [hopen]
    cases primary with
    | false =>
      rw [if_neg Bool.false_ne_true, List.append_nil]
      exact h.circle.pushAlone_of_apart
    | true =>
      rw [if_pos rfl, ← hnew]
      exact h.circle.pushBefore hsizes
  · rw [isPrimary_constrained] at hp
    rcases (hcon d).mp hd with hd | rfl
    · rw [if_neg (ne_of_hasConstraint hd)] at hp
      exact h.alone_constrained name kind primary hs hd hp
    · rw [if_pos rfl] at hp
      subst hp
      rw [← hnew]
      exact Ring.Circle.pushAlone hsizes
  · show (m.links.covered.push false).size = (m.board.constraints.push _).size
    rw [Array.size_push, Array.size_push, h.covered_size]
  · rw [hopen]
    show (if primary then m.links.activeConstraints.up else m.links.activeConstraints) = _
    rw [h.count]
    cases primary <;> simp [Tally.up]

/-- The new column is empty, and the others stay. -/
theorem ColumnsThreaded.circle_constrained (h : m.ColumnsThreaded) (hs : m.Sized)
    {d : ConstraintId} (hd : m.HasConstraint d ∨ d = m.board.constraints.size) :
    (m.constrained name kind primary).links.columns.Circle
      ((m.constrained name kind primary).head d)
      (if d = m.board.constraints.size then [] else m.column d) := by
  rw [head_constrained]
  show m.links.columns.pushAlone.Circle _ _
  rcases hd with hd | rfl
  · rw [if_neg (ne_of_hasConstraint hd), if_neg (ne_of_hasConstraint hd)]
    exact (h.circle d hd).pushAlone_of_apart
  · rw [if_pos rfl, if_pos rfl, ← hs.columns_after]
    exact Ring.Circle.pushAlone (hs.columns_before.trans hs.columns_after.symm)

theorem ColumnsThreaded.column_constrained (h : m.ColumnsThreaded) (hs : m.Sized)
    {d : ConstraintId} (hd : m.HasConstraint d ∨ d = m.board.constraints.size) :
    (m.constrained name kind primary).column d =
      if d = m.board.constraints.size then [] else m.column d :=
  (h.circle_constrained name kind primary hs hd).forward_eq

theorem ColumnsThreaded.constrained (h : m.ColumnsThreaded) (hs : m.Sized)
    (hK : 0 < m.board.constraints.size) :
    (m.constrained name kind primary).ColumnsThreaded := by
  have hcon := hasConstraint_constrained (m := m) name kind primary hK
  refine ⟨fun d hd => ?_, fun d hd => ?_, fun d hd => ?_⟩
  · rw [h.column_constrained name kind primary hs ((hcon d).mp hd)]
    exact h.circle_constrained name kind primary hs ((hcon d).mp hd)
  · rw [h.column_constrained name kind primary hs ((hcon d).mp hd), cellsOf_constrained]
    rcases (hcon d).mp hd with hd | rfl
    · rw [if_neg (ne_of_hasConstraint hd)]
      exact h.sublist d hd
    · rw [if_pos rfl]
      exact List.nil_sublist _
  · rw [h.column_constrained name kind primary hs ((hcon d).mp hd)]
    show (m.links.lens.push .zero)[d]? = _
    rw [Array.getElem?_push, hs.lens]
    rcases (hcon d).mp hd with hd | rfl
    · rw [if_neg (ne_of_hasConstraint hd), if_neg (ne_of_hasConstraint hd)]
      exact h.len d hd
    · rw [if_pos rfl, if_pos rfl]
      rfl

/-- A constraint can be added at any time. -/
theorem Coherent.constrained (hm : m.Coherent) (hs : m.Sized) :
    (m.constrained name kind primary).Coherent := by
  have hK := hs.constraints_pos hm.constraints
  refine ⟨⟨hm.laid.constrained name kind primary hK,
    hm.constraints.constrained name kind primary hs,
    ⟨hm.candidates.root, hm.candidates.circle, hm.candidates.active_size, hm.candidates.count⟩,
    hm.columns.constrained name kind primary hs hK, fun d hd hu => ?_⟩, fun r c ha hrc => ?_⟩
  · have hd := (hasConstraint_constrained name kind primary hK d).mp hd
    rw [isCovered_constrained] at hu
    rw [hm.columns.column_constrained name kind primary hs hd, cellsOf_constrained,
      candidateOf_constrained]
    rcases hd with hd | rfl
    · rw [if_neg (ne_of_hasConstraint hd)]
      exact hm.open_column d hd hu
    · rw [if_pos rfl, hm.laid.cellsOf_new]
      rfl
  · rw [isCovered_constrained]
    exact hm.settled r c ha ((hm.laid.hits_constrained name kind primary r c).mp hrc)

theorem Sized.constrained (h : m.Sized) : (m.constrained name kind primary).Sized := by
  have hring : ∀ {n : Nat}, m.links.constraints.before.size = n →
      m.links.constraints.after.size = n →
      (m.constrained name kind primary).links.constraints.before.size = n + 1 ∧
        (m.constrained name kind primary).links.constraints.after.size = n + 1 := by
    rintro n rfl hafter
    show (if primary then m.links.constraints.pushBefore 0
      else m.links.constraints.pushAlone).before.size = _ ∧ (if primary then
        m.links.constraints.pushBefore 0 else m.links.constraints.pushAlone).after.size = _
    cases primary <;> simp [Ring.pushBefore, Ring.pushAlone, hafter]
  obtain ⟨hbefore, hafter⟩ := hring h.constraints_before h.constraints_after
  refine ⟨?_, ?_, h.candidates_before, h.candidates_after, ?_, ?_, ?_⟩
  · exact hbefore.trans (Array.size_push ..).symm
  · exact hafter.trans (Array.size_push ..).symm
  · show (m.links.columns.before.push _).size = (m.board.cells.push _).size
    rw [Array.size_push, Array.size_push, h.columns_before]
  · show (m.links.columns.after.push _).size = (m.board.cells.push _).size
    rw [Array.size_push, Array.size_push, h.columns_after]
  · show (m.links.lens.push _).size = (m.board.constraints.push _).size
    rw [Array.size_push, Array.size_push, h.lens]

theorem Fresh.constrained (h : m.Fresh) : (m.constrained name kind primary).Fresh := by
  refine Fresh.of_coherent (h.coherent.constrained name kind primary h.sized)
    (h.sized.constrained name kind primary) (fun c => ?_) h.active
  rw [isCovered_constrained]
  exact h.uncovered c

end Constrained

/-! ## Adding a cell -/

section AddCell

variable {m : Matrix P} {r : CandidateId} {c : ConstraintId}

theorem cell_addCell (r : CandidateId) (c : ConstraintId) (h : CellId) :
    (m.addCell r c).cell h = if h = m.board.cells.size then ⟨c, r⟩ else m.cell h :=
  getD_push _ _ _ _

theorem cellsOf_addCell (hr : r ≠ 0) (c d : ConstraintId) :
    (m.addCell r c).cellsOf d = m.cellsOf d ++ if d = c then [m.board.cells.size] else [] := by
  have hsize : (m.addCell r c).board.cells.size = m.board.cells.size + 1 := Array.size_push ..
  unfold cellsOf
  rw [hsize, List.range_succ, List.filter_append]
  have hold : (List.range m.board.cells.size).filter (fun h =>
      (m.addCell r c).candidateOf h != 0 && (m.addCell r c).constraintOf h == d) =
      (List.range m.board.cells.size).filter (fun h =>
        m.candidateOf h != 0 && m.constraintOf h == d) := by
    refine List.filter_congr fun h hh => ?_
    have hne := Nat.ne_of_lt (List.mem_range.mp hh)
    rw [candidateOf, constraintOf, cell_addCell, if_neg hne]
    rfl
  rw [hold, List.filter_singleton, candidateOf, constraintOf, cell_addCell, if_pos rfl]
  by_cases hd : d = c
  · simp [hd, bne_iff_ne.mpr hr]
  · simp [hd, beq_false_of_ne (Ne.symm hd)]

/-- The columns are in order and there are links for every cell, whatever the rows are. -/
structure Shelved (m : Matrix P) : Prop where
  before_size : m.links.columns.before.size = m.board.cells.size
  after_size : m.links.columns.after.size = m.board.cells.size
  lens_size : m.links.lens.size = m.board.constraints.size
  head_lt : ∀ c, m.HasConstraint c → m.head c < m.board.cells.size
  cell_head : ∀ c, m.HasConstraint c → m.cell (m.head c) = ⟨c, 0⟩
  columns : m.ColumnsThreaded

theorem Threaded.shelved (h : m.Threaded) (hs : m.Sized) : m.Shelved :=
  ⟨hs.columns_before, hs.columns_after, hs.lens, h.laid.head_lt, h.laid.cell_head, h.columns⟩

namespace Shelved

theorem constraintOf_of_mem_circle (h : m.Shelved) (hc : m.HasConstraint c)
    {x : CellId} (hx : x ∈ m.head c :: m.column c) : m.constraintOf x = c := by
  rcases List.mem_cons.mp hx with rfl | hx
  · rw [constraintOf, h.cell_head c hc]
  · exact h.columns.constraintOf_of_mem hc hx

/-- A new cell comes last in its column. -/
theorem circle_addCell (h : m.Shelved) (hc : m.HasConstraint c) {d : ConstraintId}
    (hd : m.HasConstraint d) :
    (m.addCell r c).links.columns.Circle (m.head d)
      (m.column d ++ if d = c then [m.board.cells.size] else []) := by
  have hsizes : m.links.columns.before.size = m.links.columns.after.size :=
    h.before_size.trans h.after_size.symm
  have hnew : m.links.columns.size = m.board.cells.size := h.after_size
  show (m.links.columns.pushBefore (m.head c)).Circle (m.head d) _
  by_cases hdc : d = c
  · subst hdc
    rw [if_pos rfl, ← hnew]
    exact (h.columns.circle d hd).pushBefore hsizes
  · rw [if_neg hdc, List.append_nil]
    have hapart : ∀ x ∈ m.head c :: m.column c, x ∉ m.head d :: m.column d := by
      intro x hx hxd
      have h1 := h.constraintOf_of_mem_circle hd hxd
      exact hdc (h1.symm.trans (h.constraintOf_of_mem_circle hc hx))
    exact (h.columns.circle d hd).pushBefore_of_apart hsizes (hapart _ List.mem_cons_self)
      (hapart _ (h.columns.circle c hc).prev_sentinel_mem)

theorem column_addCell (h : m.Shelved) (hc : m.HasConstraint c) {d : ConstraintId}
    (hd : m.HasConstraint d) :
    (m.addCell r c).column d = m.column d ++ if d = c then [m.board.cells.size] else [] :=
  (h.circle_addCell hc hd).forward_eq

theorem addCell (h : m.Shelved) (hr : r ≠ 0) (hc : m.HasConstraint c) :
    (m.addCell r c).Shelved := by
  refine ⟨?_, ?_, ?_, fun d hd => ?_, fun d hd => ?_,
    ⟨fun d hd => ?_, fun d hd => ?_, fun d hd => ?_⟩⟩
  · show (m.links.columns.pushBefore _).before.size = (m.board.cells.push _).size
    simp [Ring.pushBefore, h.before_size]
  · show (m.links.columns.pushBefore _).after.size = (m.board.cells.push _).size
    simp [Ring.pushBefore, h.after_size]
  · show (m.links.lens.modify c Tally.up).size = m.board.constraints.size
    rw [Array.size_modify, h.lens_size]
  · show m.head d < (m.board.cells.push _).size
    rw [Array.size_push]
    exact Nat.lt_succ_of_lt (h.head_lt d hd)
  · show (m.addCell r c).cell (m.head d) = _
    rw [cell_addCell, if_neg (Nat.ne_of_lt (h.head_lt d hd))]
    exact h.cell_head d hd
  · rw [h.column_addCell hc hd]
    exact h.circle_addCell hc hd
  · rw [h.column_addCell hc hd, cellsOf_addCell hr]
    exact (h.columns.sublist d hd).append (List.Sublist.refl _)
  · rw [h.column_addCell hc hd]
    show (m.links.lens.modify c Tally.up)[d]? = _
    rw [Array.getElem?_modify, h.columns.len d hd]
    by_cases hdc : d = c
    · subst hdc
      simp [Tally.up]
    · simp [hdc, Ne.symm hdc]

/-- New cells come last in their columns, whether these are open or not. -/
theorem foldl_addCell {cs : List ConstraintId} (h : m.Shelved) (hr : r ≠ 0)
    (hcs : ∀ c ∈ cs, m.HasConstraint c) :
    (cs.foldl (fun m c => m.addCell r c) m).Shelved ∧
      ∀ d, m.HasConstraint d → ∃ new : List CellId, (∀ x ∈ new, m.board.cells.size ≤ x) ∧
        (cs.foldl (fun m c => m.addCell r c) m).cellsOf d = m.cellsOf d ++ new ∧
        (cs.foldl (fun m c => m.addCell r c) m).column d = m.column d ++ new := by
  induction cs generalizing m with
  | nil => exact ⟨h, fun d _ => ⟨[], by simp⟩⟩
  | cons c cs ih =>
    have hc := hcs c List.mem_cons_self
    obtain ⟨hshelved, hnew⟩ := ih (h.addCell hr hc) fun d hd => hcs d (List.mem_cons_of_mem c hd)
    refine ⟨hshelved, fun d hd => ?_⟩
    obtain ⟨new, hge, hcells, hcolumn⟩ := hnew d hd
    have hsize : (m.addCell r c).board.cells.size = m.board.cells.size + 1 := Array.size_push ..
    refine ⟨(if d = c then [m.board.cells.size] else []) ++ new, fun x hx => ?_, ?_, ?_⟩
    · rcases List.mem_append.mp hx with hx | hx
      · split at hx
        · exact Nat.le_of_eq (List.mem_singleton.mp hx).symm
        · cases hx
      · have hlt := hge x hx
        omega
    · rw [List.foldl_cons, hcells, cellsOf_addCell hr, List.append_assoc]
    · rw [List.foldl_cons, hcolumn, h.column_addCell hc hd, List.append_assoc]

end Shelved

/-- Adding cells appends to the cells of the board and changes the columns and their lengths
alone. -/
theorem foldl_addCell_frame (r : CandidateId) (cs : List ConstraintId) (m : Matrix P) :
    cs.foldl (fun m c => m.addCell r c) m =
      { m with
        board := { m.board with
          cells := m.board.cells ++ (cs.map fun c => Cell.mk c r).toArray }
        links := { m.links with
          columns := (cs.foldl (fun m c => m.addCell r c) m).links.columns
          lens := (cs.foldl (fun m c => m.addCell r c) m).links.lens } } := by
  induction cs generalizing m with
  | nil => simp
  | cons c cs ih =>
    rw [List.foldl_cons, ih (m.addCell r c)]
    simp [Matrix.addCell, Board.addCell, Links.addCell]

end AddCell

/-! ## Adding a candidate -/

/-- The matrix with one more candidate, in the constraints `cs`. -/
def peopled (m : Matrix P) (name : String) (payload : P) (cs : List ConstraintId) : Matrix P :=
  let n := cs.foldl (fun n c => n.addCell m.board.candidates.size c) m
  { n with
    board := n.board.addCandidate ⟨name, some payload, m.board.cells.size, cs.length⟩
    links := n.links.addCandidate }

section Peopled

variable {m : Matrix P} (name : String) (payload : P) (cs : List ConstraintId)

theorem peopled_frame (m : Matrix P) (cs : List ConstraintId) :
    (m.peopled name payload cs).board =
      { m.board with
        cells := m.board.cells ++ (cs.map fun c => Cell.mk c m.board.candidates.size).toArray
        candidates := m.board.candidates.push
          ⟨name, some payload, m.board.cells.size, cs.length⟩ } ∧
      (m.peopled name payload cs).links.constraints = m.links.constraints ∧
      (m.peopled name payload cs).links.covered = m.links.covered ∧
      (m.peopled name payload cs).links.activeConstraints = m.links.activeConstraints ∧
      (m.peopled name payload cs).links.candidates = m.links.candidates.pushBefore 0 ∧
      (m.peopled name payload cs).links.active = m.links.active.push true ∧
      (m.peopled name payload cs).links.activeCandidates = m.links.activeCandidates.up := by
  unfold peopled
  rw [foldl_addCell_frame]
  exact ⟨rfl, rfl, rfl, rfl, rfl, rfl, rfl⟩

theorem candidate_peopled (q : CandidateId) :
    (m.peopled name payload cs).candidate q =
      if q = m.board.candidates.size then ⟨name, some payload, m.board.cells.size, cs.length⟩
      else m.candidate q := by
  unfold candidate
  rw [(peopled_frame name payload m cs).1]
  exact getD_push _ _ _ _

theorem row_peopled (q : CandidateId) :
    (m.peopled name payload cs).row q =
      if q = m.board.candidates.size then List.range' m.board.cells.size cs.length
      else m.row q := by
  rw [row, candidate_peopled]
  split
  · rfl
  · rfl

theorem cell_peopled_of_lt {h : CellId} (hh : h < m.board.cells.size) :
    (m.peopled name payload cs).cell h = m.cell h := by
  unfold cell
  rw [(peopled_frame name payload m cs).1]
  simp only [Array.getD_eq_getD_getElem?]
  rw [Array.getElem?_append_left hh]

/-- The new cells belong to the new candidate and to the constraints in their order. -/
theorem cell_peopled_of_ge {h : CellId} (hh : m.board.cells.size ≤ h) :
    (m.peopled name payload cs).cell h =
      ((cs[h - m.board.cells.size]?).map fun c =>
        Cell.mk c m.board.candidates.size).getD .root := by
  unfold cell
  rw [(peopled_frame name payload m cs).1]
  simp only [Array.getD_eq_getD_getElem?]
  rw [Array.getElem?_append_right hh]
  simp

theorem size_candidates_peopled :
    (m.peopled name payload cs).board.candidates.size = m.board.candidates.size + 1 := by
  rw [(peopled_frame name payload m cs).1]
  exact Array.size_push ..

theorem hasCandidate_peopled (hR : 0 < m.board.candidates.size) (q : CandidateId) :
    (m.peopled name payload cs).HasCandidate q ↔
      m.HasCandidate q ∨ q = m.board.candidates.size := by
  unfold HasCandidate
  rw [size_candidates_peopled]
  exact number_lt_succ hR

/-- Every cell of the larger board is one of the old cells or the new cell of some constraint. -/
theorem cell_peopled_cases {h : CellId} (hr : (m.peopled name payload cs).candidateOf h ≠ 0) :
    (h < m.board.cells.size ∧ (m.peopled name payload cs).cell h = m.cell h) ∨
      ∃ i, ∃ hi : i < cs.length, h = m.board.cells.size + i ∧
        (m.peopled name payload cs).cell h = ⟨cs[i], m.board.candidates.size⟩ := by
  rcases Nat.lt_or_ge h m.board.cells.size with hlt | hge
  · exact Or.inl ⟨hlt, cell_peopled_of_lt name payload cs hlt⟩
  · obtain ⟨i, rfl⟩ := Nat.exists_eq_add_of_le hge
    have hcell := cell_peopled_of_ge (m := m) name payload cs hge
    rw [Nat.add_sub_cancel_left] at hcell
    rcases Nat.lt_or_ge i cs.length with hi | hi
    · refine Or.inr ⟨i, hi, rfl, ?_⟩
      rw [hcell, List.getElem?_eq_getElem hi]
      rfl
    · rw [List.getElem?_eq_none hi] at hcell
      rw [candidateOf, hcell] at hr
      exact absurd rfl hr

theorem Laid.row_lt (h : m.Laid) {q : CandidateId} {x : CellId} (hx : x ∈ m.row q) :
    x < m.board.cells.size := by
  refine lt_of_candidateOf_ne_zero ?_
  rw [h.candidateOf_row hx]
  exact Nat.ne_of_gt (h.hasCandidate hx).1

theorem map_constraintOf_new (cs : List ConstraintId) :
    (List.range' m.board.cells.size cs.length).map
      (m.peopled name payload cs).constraintOf = cs := by
  refine List.ext_getElem (by simp) fun i h1 h2 => ?_
  have hcell := cell_peopled_of_ge (m := m) name payload cs
    (Nat.le_add_right m.board.cells.size i)
  rw [Nat.add_sub_cancel_left, List.getElem?_eq_getElem h2] at hcell
  rw [List.getElem_map, List.getElem_range', Nat.one_mul, constraintOf, hcell]
  rfl

theorem constraint_peopled (c : ConstraintId) :
    (m.peopled name payload cs).constraint c = m.constraint c := by
  rw [constraint, (peopled_frame name payload m cs).1]
  rfl

theorem head_peopled (c : ConstraintId) : (m.peopled name payload cs).head c = m.head c :=
  congrArg Constraint.head (constraint_peopled name payload cs c)

theorem hasConstraint_peopled :
    (m.peopled name payload cs).HasConstraint = m.HasConstraint := by
  funext c
  rw [HasConstraint, (peopled_frame name payload m cs).1]
  rfl

/-- The row of an old candidate stays, and so do its cells. -/
theorem Laid.map_constraintOf_old (h : m.Laid) (q : CandidateId) :
    (m.row q).map (m.peopled name payload cs).constraintOf = (m.row q).map m.constraintOf := by
  refine List.map_congr_left fun x hx => ?_
  rw [constraintOf, cell_peopled_of_lt name payload cs (h.row_lt hx)]
  rfl

theorem Laid.cell_row_peopled (h : m.Laid) (hcs : ∀ c ∈ cs, m.HasConstraint c) {q : CandidateId}
    (hq : m.HasCandidate q ∨ q = m.board.candidates.size) :
    ∀ x ∈ (m.peopled name payload cs).row q, (m.peopled name payload cs).candidateOf x = q ∧
      m.HasConstraint ((m.peopled name payload cs).constraintOf x) := by
  intro x hx
  rw [row_peopled] at hx
  rw [candidateOf, constraintOf]
  rcases hq with hq | rfl
  · rw [if_neg (Nat.ne_of_lt hq.2)] at hx
    rw [cell_peopled_of_lt name payload cs (h.row_lt hx)]
    exact h.cell_row q hq x hx
  · rw [if_pos rfl, List.mem_range'_1] at hx
    rw [cell_peopled_of_ge name payload cs hx.1, List.getElem?_eq_getElem (by omega)]
    exact ⟨rfl, hcs _ (List.getElem_mem _)⟩

theorem Laid.row_ascending_peopled (h : m.Laid) (hasc : cs.Pairwise (· < ·)) {q : CandidateId}
    (hq : m.HasCandidate q ∨ q = m.board.candidates.size) :
    (((m.peopled name payload cs).row q).map
      (m.peopled name payload cs).constraintOf).Pairwise (· < ·) := by
  rw [row_peopled]
  rcases hq with hq | rfl
  · rw [if_neg (Nat.ne_of_lt hq.2), h.map_constraintOf_old]
    exact h.row_ascending q hq
  · rw [if_pos rfl, map_constraintOf_new]
    exact hasc

theorem Laid.row_cell_peopled (h : m.Laid) (hR : 0 < m.board.candidates.size) {x : CellId}
    (hx : (m.peopled name payload cs).candidateOf x ≠ 0) :
    (m.peopled name payload cs).HasCandidate ((m.peopled name payload cs).candidateOf x) ∧
      x ∈ (m.peopled name payload cs).row ((m.peopled name payload cs).candidateOf x) := by
  rcases cell_peopled_cases name payload cs hx with ⟨hlt, hcell⟩ | ⟨i, hi, rfl, hcell⟩
  · have hxr : (m.peopled name payload cs).candidateOf x = m.candidateOf x :=
      congrArg Cell.candidate hcell
    rw [hxr] at hx ⊢
    obtain ⟨hq, hrow⟩ := h.row_cell x hx
    rw [hasCandidate_peopled name payload cs hR, row_peopled, if_neg (Nat.ne_of_lt hq.2)]
    exact ⟨Or.inl hq, hrow⟩
  · rw [candidateOf, hcell, hasCandidate_peopled name payload cs hR, row_peopled, if_pos rfl,
      List.mem_range'_1]
    exact ⟨Or.inr rfl, by omega⟩

/-- The new candidate comes after all others, as its cells do. -/
theorem Laid.in_order_peopled (h : m.Laid) {x y : CellId} (hxy : x < y)
    (hx : (m.peopled name payload cs).candidateOf x ≠ 0)
    (hy : (m.peopled name payload cs).candidateOf y ≠ 0) :
    (m.peopled name payload cs).candidateOf x ≤ (m.peopled name payload cs).candidateOf y := by
  rcases cell_peopled_cases name payload cs hx with ⟨hlt, hcell⟩ | ⟨i, hi, rfl, hcell⟩
  · rcases cell_peopled_cases name payload cs hy with ⟨hlt', hcell'⟩ | ⟨j, hj, rfl, hcell'⟩
    · rw [candidateOf, hcell] at hx
      rw [candidateOf, hcell'] at hy
      rw [candidateOf, candidateOf, hcell, hcell']
      exact h.in_order x y hxy hx hy
    · rw [candidateOf, hcell] at hx
      rw [candidateOf, candidateOf, hcell, hcell']
      exact Nat.le_of_lt (h.row_cell x hx).1.2
  · rcases cell_peopled_cases name payload cs hy with ⟨hlt', -⟩ | ⟨j, hj, rfl, hcell'⟩
    · exact absurd (Nat.lt_trans hxy hlt') (Nat.not_lt.mpr (Nat.le_add_right _ _))
    · exact Nat.le_of_eq (by rw [candidateOf, candidateOf, hcell, hcell'])

theorem Laid.peopled (h : m.Laid) (hR : 0 < m.board.candidates.size) (hne : cs ≠ [])
    (hcs : ∀ c ∈ cs, m.HasConstraint c) (hasc : cs.Pairwise (· < ·)) :
    (m.peopled name payload cs).Laid := by
  have hcon := hasConstraint_peopled (m := m) name payload cs
  have hcand := hasCandidate_peopled (m := m) name payload cs hR
  have hhead := head_peopled (m := m) name payload cs
  refine
    { rootConstraint := ?_, rootCandidate := ?_, head_lt := fun c hc => ?_
      cell_head := fun c hc => ?_, size_pos := fun q hq => ?_
      cell_row := fun q hq => ?_
      row_ascending := fun q hq => h.row_ascending_peopled name payload cs hasc ((hcand q).mp hq)
      row_cell := fun x hx => h.row_cell_peopled name payload cs hR hx
      in_order := fun x y hxy hx hy => h.in_order_peopled name payload cs hxy hx hy }
  · rw [constraint_peopled]
    exact h.rootConstraint
  · rw [candidate_peopled, if_neg (Nat.ne_of_lt hR)]
    exact h.rootCandidate
  · rw [hcon] at hc
    rw [hhead, (peopled_frame name payload m cs).1]
    show m.head c < (m.board.cells ++ _).size
    rw [Array.size_append]
    exact Nat.lt_add_right _ (h.head_lt c hc)
  · rw [hcon] at hc
    rw [hhead, cell_peopled_of_lt name payload cs (h.head_lt c hc)]
    exact h.cell_head c hc
  · rw [candidate_peopled]
    rcases (hcand q).mp hq with hq | rfl
    · rw [if_neg (Nat.ne_of_lt hq.2)]
      exact h.size_pos q hq
    · rw [if_pos rfl]
      exact List.length_pos_of_ne_nil hne
  · rw [hcon]
    exact h.cell_row_peopled name payload cs hcs ((hcand q).mp hq)

theorem Laid.hits_peopled (h : m.Laid) (q : CandidateId) (c : ConstraintId) :
    (m.peopled name payload cs).Hits q c ↔
      if q = m.board.candidates.size then c ∈ cs else m.Hits q c := by
  rw [hits_iff_mem_map, row_peopled]
  split
  · rw [map_constraintOf_new]
  · rw [h.map_constraintOf_old, hits_iff_mem_map]

theorem isCovered_peopled : (m.peopled name payload cs).isCovered = m.isCovered := by
  obtain ⟨-, -, hcov, -⟩ := peopled_frame name payload m cs
  funext c
  rw [isCovered, hcov]
  rfl

theorem isCandidateActive_peopled (h : m.CandidatesThreaded) (q : CandidateId) :
    (m.peopled name payload cs).isCandidateActive q =
      if q = m.board.candidates.size then true else m.isCandidateActive q := by
  obtain ⟨-, -, -, -, -, hactive, -⟩ := peopled_frame name payload m cs
  rw [isCandidateActive, hactive, getD_push, h.active_size]
  rfl

theorem openCandidates_peopled (h : m.CandidatesThreaded) (hR : 0 < m.board.candidates.size) :
    (m.peopled name payload cs).openCandidates =
      m.openCandidates ++ [m.board.candidates.size] := by
  have hcount : (m.peopled name payload cs).candidateCount = m.candidateCount + 1 := by
    unfold candidateCount
    rw [size_candidates_peopled]
    omega
  have hlast : 1 + m.candidateCount = m.board.candidates.size := by
    unfold candidateCount
    omega
  have hflag := isCandidateActive_peopled name payload cs h
  have hold : ∀ q < 1 + m.candidateCount,
      (m.peopled name payload cs).isCandidateActive q = m.isCandidateActive q := by
    intro q hq
    rw [hflag, if_neg (Nat.ne_of_lt (hlast ▸ hq))]
  unfold openCandidates
  rw [hcount, filter_range'_succ hold, hlast, hflag, if_pos rfl, if_pos rfl]

/-- The new candidate comes last on the circle of the active ones. -/
theorem CandidatesThreaded.peopled (h : m.CandidatesThreaded) (hs : m.Sized) :
    (m.peopled name payload cs).CandidatesThreaded := by
  obtain ⟨-, -, -, -, hcircle, hactive, hcount⟩ := peopled_frame name payload m cs
  have hR := hs.candidates_pos h
  have hopen := openCandidates_peopled name payload cs h hR
  have hsizes : m.links.candidates.before.size = m.links.candidates.after.size :=
    hs.candidates_before.trans hs.candidates_after.symm
  have hnew : m.links.candidates.size = m.board.candidates.size := hs.candidates_after
  refine ⟨?_, ?_, ?_, ?_⟩
  · rw [isCandidateActive_peopled name payload cs h, if_neg (Nat.ne_of_lt hR)]
    exact h.root
  · rw [hcircle, hopen, ← hnew]
    exact h.circle.pushBefore hsizes
  · rw [hactive, size_candidates_peopled, Array.size_push, h.active_size]
  · rw [hcount, hopen, h.count]
    simp [Tally.up]

/-- The cells that are new on the board are those of the new candidate. -/
theorem candidateOf_peopled_of_ge {x : CellId}
    (hx : (m.peopled name payload cs).candidateOf x ≠ 0) (hge : m.board.cells.size ≤ x) :
    (m.peopled name payload cs).candidateOf x = m.board.candidates.size := by
  rcases cell_peopled_cases name payload cs hx with ⟨hlt, -⟩ | ⟨i, hi, -, hcell⟩
  · exact absurd hlt (Nat.not_lt.mpr hge)
  · rw [candidateOf, hcell]

/-- A new candidate joins the circles, whatever its constraints are. -/
theorem Threaded.peopled (h : m.Threaded) (hs : m.Sized) (hne : cs ≠ [])
    (hcs : ∀ c ∈ cs, m.HasConstraint c) (hasc : cs.Pairwise (· < ·)) :
    (m.peopled name payload cs).Threaded := by
  have hR := hs.candidates_pos h.candidates
  obtain ⟨hb, hring, hcov, hcount, -⟩ := peopled_frame name payload m cs
  obtain ⟨hshelved, hnew⟩ := (h.shelved hs).foldl_addCell (Nat.ne_of_gt hR) hcs
  have hconstraints : (m.peopled name payload cs).board.constraints = m.board.constraints := by
    rw [hb]
  refine ⟨h.laid.peopled name payload cs hR hne hcs hasc,
    h.constraints.congr hconstraints hring hcov hcount, h.candidates.peopled name payload cs hs,
    ⟨hshelved.columns.circle, hshelved.columns.sublist, hshelved.columns.len⟩, fun d hd hu => ?_⟩
  rw [hasConstraint_peopled] at hd
  rw [isCovered_peopled] at hu
  obtain ⟨new, hge, hcells, hcolumn⟩ := hnew d hd
  have hcells : (m.peopled name payload cs).cellsOf d = m.cellsOf d ++ new := hcells
  have hcolumn : (m.peopled name payload cs).column d = m.column d ++ new := hcolumn
  have hactive := isCandidateActive_peopled name payload cs h.candidates
  have hold : ∀ x ∈ m.cellsOf d,
      (m.peopled name payload cs).isCandidateActive ((m.peopled name payload cs).candidateOf x) =
        m.isCandidateActive (m.candidateOf x) := by
    intro x hx
    have hx0 := (mem_cellsOf.mp hx).1
    have hcell := cell_peopled_of_lt name payload cs (lt_of_candidateOf_ne_zero hx0)
    have hkept : (m.peopled name payload cs).candidateOf x = m.candidateOf x :=
      congrArg Cell.candidate hcell
    rw [hkept, hactive, if_neg (Nat.ne_of_lt (h.laid.row_cell x hx0).1.2)]
  have hadded : ∀ x ∈ new, (m.peopled name payload cs).isCandidateActive
      ((m.peopled name payload cs).candidateOf x) = true := by
    intro x hx
    have hx0 := (mem_cellsOf.mp (hcells ▸ List.mem_append_right _ hx)).1
    rw [candidateOf_peopled_of_ge name payload cs hx0 (hge x hx), hactive, if_pos rfl]
  rw [hcolumn, hcells, List.filter_append, h.open_column d hd hu, List.filter_congr hold,
    List.filter_eq_self.mpr hadded]

/-- A candidate can be added to open constraints. -/
theorem Coherent.peopled (h : m.Coherent) (hs : m.Sized) (hne : cs ≠ [])
    (hcs : ∀ c ∈ cs, m.HasConstraint c) (hasc : cs.Pairwise (· < ·))
    (hopen : ∀ c ∈ cs, m.isCovered c = false) : (m.peopled name payload cs).Coherent := by
  refine ⟨h.toThreaded.peopled name payload cs hs hne hcs hasc, fun q c ha hqc => ?_⟩
  rw [isCandidateActive_peopled name payload cs h.candidates] at ha
  rw [h.laid.hits_peopled] at hqc
  rw [isCovered_peopled]
  split at hqc
  · exact hopen c hqc
  · next hq =>
    rw [if_neg hq] at ha
    exact h.settled q c ha hqc

theorem Sized.peopled (h : m.Sized) (hm : m.Threaded) (hcs : ∀ c ∈ cs, m.HasConstraint c) :
    (m.peopled name payload cs).Sized := by
  have hR := h.candidates_pos hm.candidates
  obtain ⟨hb, hring, -, -, hcircle, -⟩ := peopled_frame name payload m cs
  obtain ⟨hshelved, -⟩ := (hm.shelved h).foldl_addCell (Nat.ne_of_gt hR) hcs
  have hconstraints : (m.peopled name payload cs).board.constraints = m.board.constraints := by
    rw [hb]
  refine ⟨?_, ?_, ?_, ?_, hshelved.before_size, hshelved.after_size, hshelved.lens_size⟩
  · rw [hring, hconstraints]
    exact h.constraints_before
  · rw [hring, hconstraints]
    exact h.constraints_after
  · rw [hcircle, size_candidates_peopled, ← h.candidates_before]
    simp [Ring.pushBefore]
  · rw [hcircle, size_candidates_peopled, ← h.candidates_after]
    simp [Ring.pushBefore]

theorem Fresh.peopled (h : m.Fresh) (hne : cs ≠ []) (hcs : ∀ c ∈ cs, m.HasConstraint c)
    (hasc : cs.Pairwise (· < ·)) : (m.peopled name payload cs).Fresh := by
  refine Fresh.of_coherent (h.coherent.peopled name payload cs h.sized hne hcs hasc
    fun c _ => h.uncovered c) (h.sized.peopled name payload cs h.coherent.toThreaded hcs)
    (fun c => ?_) fun q hq => ?_
  · rw [isCovered_peopled]
    exact h.uncovered c
  · rw [isCandidateActive_peopled name payload cs h.candidates]
    rcases (hasCandidate_peopled name payload cs h.candidates_pos q).mp hq with hq | rfl
    · rw [if_neg (Nat.ne_of_lt hq.2)]
      exact h.active q hq
    · rw [if_pos rfl]

end Peopled

/-! ## What a successful addition has checked -/

/-- A sorted list in which no member equals the next ascends strictly. -/
theorem ascending_of_firstRepeat :
    ∀ {cs : List ConstraintId}, cs.Pairwise (· ≤ ·) → firstRepeat cs = none →
      cs.Pairwise (· < ·)
  | [], _, _ => List.Pairwise.nil
  | [_], _, _ => List.pairwise_singleton _ _
  | a :: b :: rest, hs, hf => by
    unfold firstRepeat at hf
    split at hf
    · cases hf
    · next hne =>
      obtain ⟨ha, hs⟩ := List.pairwise_cons.mp hs
      have hrest := ascending_of_firstRepeat hs hf
      have hab : a < b := Nat.lt_of_le_of_ne (ha b List.mem_cons_self) hne
      refine List.pairwise_cons.mpr ⟨fun c hc => ?_, hrest⟩
      rcases List.mem_cons.mp hc with rfl | hc
      · exact hab
      · exact Nat.lt_trans hab ((List.pairwise_cons.mp hrest).1 c hc)

theorem constraintByName_some {m : Matrix P} (hl : m.Laid) {name : String} {c : ConstraintId}
    (h : m.constraintByName? name = some c) : m.HasConstraint c := by
  unfold constraintByName? at h
  obtain ⟨hc, hp, -⟩ := Array.findIdx?_eq_some_iff_getElem.mp h
  refine ⟨Nat.pos_of_ne_zero ?_, hc⟩
  rintro rfl
  have hroot := hl.rootConstraint
  rw [constraint, Array.getD_eq_getD_getElem?, Array.getElem?_eq_getElem hc,
    Option.getD_some] at hroot
  simp [hroot, Constraint.root] at hp

theorem resolveConstraints_ok {m : Matrix P} :
    ∀ {names : List String} {cs : List ConstraintId}, m.resolveConstraints names = .ok cs →
      ∀ c ∈ cs, ∃ s ∈ names, m.constraintByName? s = some c
  | [], cs, h => by
    cases h
    simp
  | name :: names, cs, h => by
    unfold resolveConstraints at h
    split at h
    · cases h
    · next c hc =>
      cases hrest : m.resolveConstraints names with
      | error e =>
        rw [hrest] at h
        cases h
      | ok ds =>
        rw [hrest] at h
        cases h
        intro d hd
        rcases List.mem_cons.mp hd with rfl | hd
        · exact ⟨name, List.mem_cons_self, hc⟩
        · obtain ⟨s, hs, hsd⟩ := resolveConstraints_ok hrest d hd
          exact ⟨s, List.mem_cons_of_mem name hs, hsd⟩

theorem eq_peopled {m n : Matrix P} {name : String} {names : List String} {payload : P}
    {r : CandidateId} (h : m.addCandidate name names payload = .ok (n, r)) :
    ∃ cs, cs ≠ [] ∧ (∀ c ∈ cs, ∃ s ∈ names, m.constraintByName? s = some c) ∧
      cs.Pairwise (· < ·) ∧ n = m.peopled name payload cs := by
  unfold addCandidate at h
  split at h
  · cases h
  · split at h
    · cases h
    · cases h
    · next found hne hfound =>
      dsimp only at h
      split at h
      · cases h
      · next hrepeat =>
        refine ⟨found.mergeSort, ?_, ?_, ?_, ?_⟩
        · intro hnil
          have hlen : found.mergeSort.length = found.length := List.length_mergeSort found
          rw [hnil] at hlen
          exact hne (List.eq_nil_of_length_eq_zero hlen.symm)
        · intro c hc
          exact resolveConstraints_ok hfound c (List.mem_mergeSort.mp hc)
        · refine ascending_of_firstRepeat ?_ hrepeat
          have hsorted : found.mergeSort.Pairwise fun a b => decide (a ≤ b) = true :=
            List.pairwise_mergeSort (by simpa using fun a b c => Nat.le_trans)
              (by simpa using Nat.le_total) found
          simpa using hsorted
        · cases h
          rfl

/-- Constraints that names resolve to are there. -/
theorem Laid.hasConstraint_of_names {m : Matrix P} (hl : m.Laid) {names : List String}
    {cs : List ConstraintId} (hcs : ∀ c ∈ cs, ∃ s ∈ names, m.constraintByName? s = some c) :
    ∀ c ∈ cs, m.HasConstraint c := by
  intro c hc
  obtain ⟨s, -, hs⟩ := hcs c hc
  exact constraintByName_some hl hs

/-! ## Additions that succeed -/

/-- A constraint with a new name can be added. -/
theorem addConstraint_eq {m : Matrix P} {name : String} (kind : Kind) (primary : Bool)
    (hnew : m.constraintByName? name = none) :
    m.addConstraint name kind primary =
      .ok (m.constrained name kind primary, m.board.constraints.size) := by
  simp only [addConstraint, hnew]
  rfl

theorem firstRepeat_of_ascending :
    ∀ {cs : List ConstraintId}, cs.Pairwise (· < ·) → firstRepeat cs = none
  | [], _ => rfl
  | [_], _ => rfl
  | a :: b :: rest, h => by
    obtain ⟨ha, hrest⟩ := List.pairwise_cons.mp h
    have hne : a ≠ b := Nat.ne_of_lt (ha b List.mem_cons_self)
    rw [firstRepeat, if_neg hne]
    exact firstRepeat_of_ascending hrest

theorem resolveConstraints_eq {m : Matrix P} :
    ∀ {names : List String} {cs : List ConstraintId},
      names.map m.constraintByName? = cs.map some → m.resolveConstraints names = .ok cs
  | [], [], _ => rfl
  | name :: names, c :: cs, h => by
    obtain ⟨hc, hcs⟩ := List.cons.inj h
    rw [resolveConstraints, hc, resolveConstraints_eq hcs]
    rfl

/-- A candidate with a new name can be added to known constraints that are named in order. -/
theorem addCandidate_eq {m : Matrix P} {name : String} {names : List String}
    {cs : List ConstraintId} (payload : P) (hnew : m.candidateByName? name = none)
    (hnames : names.map m.constraintByName? = cs.map some) (hne : cs ≠ [])
    (hascending : cs.Pairwise (· < ·)) :
    m.addCandidate name names payload =
      .ok (m.peopled name payload cs, m.board.candidates.size) := by
  have hsorted : cs.mergeSort = cs := by
    refine List.mergeSort_of_pairwise (hascending.imp fun hlt => ?_)
    exact decide_eq_true (Nat.le_of_lt hlt)
  cases cs with
  | nil => exact absurd rfl hne
  | cons c cs =>
    simp only [addCandidate, hnew, resolveConstraints_eq hnames, hsorted,
      firstRepeat_of_ascending hascending]
    rfl

/-- Whatever is built is fresh. -/
theorem Built.fresh {m : Matrix P} (h : Built m) : m.Fresh := by
  induction h with
  | empty => exact Fresh.empty
  | constraint _ hadd ih =>
    rw [eq_constrained hadd]
    exact ih.constrained _ _ _
  | candidate _ hadd ih =>
    obtain ⟨cs, hne, hcs, hasc, rfl⟩ := eq_peopled hadd
    exact ih.peopled _ _ cs hne (ih.laid.hasConstraint_of_names hcs) hasc

theorem Built.with_constraint {m : Matrix P} (h : m.Built) (name : String) (kind : Kind)
    (primary : Bool) (hnew : m.constraintByName? name = none) :
    (m.constrained name kind primary).Built :=
  .constraint h (addConstraint_eq kind primary hnew)

theorem Built.with_candidate {m : Matrix P} (h : m.Built) (name : String) (names : List String)
    (payload : P) (cs : List ConstraintId) (hnew : m.candidateByName? name = none)
    (hnames : names.map m.constraintByName? = cs.map some) (hne : cs ≠ [])
    (hascending : cs.Pairwise (· < ·)) : (m.peopled name payload cs).Built :=
  .candidate h (addCandidate_eq payload hnew hnames hne hascending)

/-- Building neither fixes nor chooses anything. -/
theorem Built.nothing_placed {m : Matrix P} (h : Built m) : m.hints = #[] ∧ m.solution = #[] := by
  induction h with
  | empty => exact ⟨rfl, rfl⟩
  | constraint _ hadd ih =>
    rw [eq_constrained hadd]
    exact ih
  | @candidate m _ _ _ _ _ _ hadd ih =>
    obtain ⟨cs, -, -, -, rfl⟩ := eq_peopled hadd
    have hframe := foldl_addCell_frame m.board.candidates.size cs m
    unfold peopled
    rw [hframe]
    exact ih

/-! ## A small board

Two primary constraints and a secondary one, with three candidates. The first two exclude each
other through the secondary constraint, and the last two are rivals for the second primary one. -/

def sampleA : Matrix Unit := empty.constrained "a" .other true

def sampleB : Matrix Unit := sampleA.constrained "b" .other true

def sampleS : Matrix Unit := sampleB.constrained "s" .other false

def sampleX : Matrix Unit := sampleS.peopled "x" () [1, 3]

def sampleY : Matrix Unit := sampleX.peopled "y" () [2, 3]

def sample : Matrix Unit := sampleY.peopled "z" () [2]

theorem addConstraint_sampleA :
    (empty : Matrix Unit).addConstraint "a" .other true = .ok (sampleA, 1) := by cbv

theorem addConstraint_sampleB : sampleA.addConstraint "b" .other true = .ok (sampleB, 2) := by cbv

theorem addConstraint_sampleS :
    sampleB.addConstraint "s" .other false = .ok (sampleS, 3) := by cbv

theorem addCandidate_sampleX :
    sampleS.addCandidate "x" ["s", "a"] () = .ok (sampleX, 1) := by cbv

theorem built_sampleS : sampleS.Built :=
  .constraint (.constraint (.constraint .empty addConstraint_sampleA) addConstraint_sampleB)
    addConstraint_sampleS

theorem built_sample : sample.Built := by
  have hy : sampleX.addCandidate "y" ["b", "s"] () = .ok (sampleY, 2) := by cbv
  have hz : sampleY.addCandidate "z" ["b"] () = .ok (sample, 3) := by cbv
  exact .candidate (.candidate (.candidate built_sampleS addCandidate_sampleX) hy) hz

end ExactCover.Matrix
