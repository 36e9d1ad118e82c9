/-
ExactCover.Proofs.Board — how the cells of a board are laid out.

`Laid` collects what adding constraints and candidates guarantees and nothing
else ever changes: every constraint has its header, the cells of a candidate are
consecutive and ascend by constraint, and every cell that is no header stands in
the row of its candidate. `Hits r c` says that candidate `r` has a cell in
constraint `c`; `cellsOf c` lists the cells of a constraint from top to bottom,
whether they are linked at the moment or not.

A cell of a row is known by its constraint (`Laid.eq_of_constraintOf`), and
`rightOf` goes round the row without it (`Laid.mem_rightOf`).
-/
import Mathlib.Data.List.Permutation
import ExactCover.Matrix.Basic

namespace ExactCover.Matrix

variable {P : Type}

/-- `c` is the number of a constraint. -/
def HasConstraint (m : Matrix P) (c : Nat) : Prop :=
  0 < c ∧ c < m.board.constraints.size

/-- `r` is the number of a candidate. -/
def HasCandidate (m : Matrix P) (r : Nat) : Prop :=
  0 < r ∧ r < m.board.candidates.size

/-- Candidate `r` satisfies constraint `c`. -/
def Hits (m : Matrix P) (r : CandidateId) (c : ConstraintId) : Prop :=
  ∃ h ∈ m.row r, m.constraintOf h = c

/-- The cells of a constraint in the order in which they were added, linked or not. -/
def cellsOf (m : Matrix P) (c : ConstraintId) : List CellId :=
  (List.range m.board.cells.size).filter fun h => m.candidateOf h != 0 && m.constraintOf h == c

theorem hits_iff_mem_map {m : Matrix P} {r : CandidateId} {c : ConstraintId} :
    m.Hits r c ↔ c ∈ (m.row r).map m.constraintOf := List.mem_map.symm

/-- The cells of a board stand where additions put them. -/
structure Laid (m : Matrix P) : Prop where
  rootConstraint : m.constraint 0 = .root
  rootCandidate : m.candidate 0 = .root P
  head_lt : ∀ c, m.HasConstraint c → m.head c < m.board.cells.size
  cell_head : ∀ c, m.HasConstraint c → m.cell (m.head c) = ⟨c, 0⟩
  size_pos : ∀ r, m.HasCandidate r → 0 < (m.candidate r).size
  /-- A cell of a row belongs to the row's candidate and to some constraint. -/
  cell_row : ∀ r, m.HasCandidate r → ∀ h ∈ m.row r,
    m.candidateOf h = r ∧ m.HasConstraint (m.constraintOf h)
  /-- A row ascends by constraint. -/
  row_ascending : ∀ r, m.HasCandidate r → ((m.row r).map m.constraintOf).Pairwise (· < ·)
  /-- A cell that is no header stands in the row of its candidate. -/
  row_cell : ∀ h, m.candidateOf h ≠ 0 →
    m.HasCandidate (m.candidateOf h) ∧ h ∈ m.row (m.candidateOf h)
  /-- Later cells belong to later candidates. -/
  in_order : ∀ h k, h < k → m.candidateOf h ≠ 0 → m.candidateOf k ≠ 0 →
    m.candidateOf h ≤ m.candidateOf k

/-! ## The same board

What a matrix is does not depend on what is left of it, so everything below is the same for two
matrices with one board. -/

section SameBoard

variable {m n : Matrix P} (e : n.board = m.board)

include e

theorem constraintOf_of_board : n.constraintOf = m.constraintOf := by
  funext h; simp only [constraintOf, cell, e]

theorem candidateOf_of_board : n.candidateOf = m.candidateOf := by
  funext h; simp only [candidateOf, cell, e]

theorem row_of_board : n.row = m.row := by
  funext r; simp only [row, candidate, e]

theorem rightOf_of_board : n.rightOf = m.rightOf := by
  funext h; simp only [rightOf, candidate, candidateOf_of_board e, e]

theorem leftOf_of_board : n.leftOf = m.leftOf := by
  funext h; simp only [leftOf, rightOf_of_board e]

theorem head_of_board : n.head = m.head := by
  funext c; simp only [head, constraint, e]

theorem firstCell_of_board : n.firstCell = m.firstCell := by
  funext r; simp only [firstCell, candidate, e]

theorem isPrimary_of_board : n.isPrimary = m.isPrimary := by
  funext c; simp only [isPrimary, constraint, e]

theorem cellsOf_of_board : n.cellsOf = m.cellsOf := by
  funext c; simp only [cellsOf, candidateOf_of_board e, constraintOf_of_board e, e]

theorem hasConstraint_of_board : n.HasConstraint = m.HasConstraint := by
  funext c; simp only [HasConstraint, e]

theorem hasCandidate_of_board : n.HasCandidate = m.HasCandidate := by
  funext r; simp only [HasCandidate, e]

theorem hits_of_board : n.Hits = m.Hits := by
  funext r c; simp only [Hits, row_of_board e, constraintOf_of_board e]

theorem candidate_of_board : n.candidate = m.candidate := by
  funext r; simp only [candidate, e]

end SameBoard

/-- The layout is a matter of the board. -/
theorem Laid.of_board {m n : Matrix P} (h : m.Laid) (e : n.board = m.board) : n.Laid := by
  cases m; cases n; cases e
  exact ⟨h.rootConstraint, h.rootCandidate, h.head_lt, h.cell_head, h.size_pos, h.cell_row,
    h.row_ascending, h.row_cell, h.in_order⟩

/-! ## Cells of a constraint -/

/-- A cell past the last one belongs to no candidate. -/
theorem lt_of_candidateOf_ne_zero {m : Matrix P} {h : CellId} (hr : m.candidateOf h ≠ 0) :
    h < m.board.cells.size := by
  rcases Nat.lt_or_ge h m.board.cells.size with hlt | hge
  · exact hlt
  · exact absurd (by simp [candidateOf, cell, Array.getD_eq_getD_getElem?, hge, Cell.root]) hr

theorem mem_cellsOf {m : Matrix P} {c : ConstraintId} {h : CellId} :
    h ∈ m.cellsOf c ↔ m.candidateOf h ≠ 0 ∧ m.constraintOf h = c := by
  simp only [cellsOf, List.mem_filter, List.mem_range, Bool.and_eq_true, bne_iff_ne, ne_eq,
    beq_iff_eq]
  constructor
  · intro h'
    obtain ⟨-, h⟩ := h'
    exact h
  · intro h
    exact ⟨lt_of_candidateOf_ne_zero h.1, h⟩

/-- The cells of a constraint come in ascending order. -/
theorem cellsOf_ascending (m : Matrix P) (c : ConstraintId) :
    (m.cellsOf c).Pairwise (· < ·) :=
  List.Pairwise.filter _ List.pairwise_lt_range

/-- Going on from a member of a range and round from its start meets all others. -/
theorem mem_round {first size h k : Nat} (hh : first ≤ h ∧ h < first + size) :
    k ∈ List.range' (h + 1) (first + size - (h + 1)) ++ List.range' first (h - first) ↔
      k ∈ List.range' first size ∧ k ≠ h := by
  simp only [List.mem_append, List.mem_range'_1]
  omega

theorem nodup_round (first size h : Nat) :
    (List.range' (h + 1) (first + size - (h + 1)) ++ List.range' first (h - first)).Nodup := by
  refine List.nodup_append.mpr ⟨List.nodup_range', List.nodup_range', ?_⟩
  intro x hx y hy
  simp only [List.mem_range'_1] at hx hy
  omega

namespace Laid

variable {m : Matrix P} {r : CandidateId} {h k : CellId}

/-- Only candidates have cells. -/
theorem hasCandidate (hl : m.Laid) (hh : h ∈ m.row r) : m.HasCandidate r := by
  rcases Nat.eq_zero_or_pos r with rfl | hpos
  · rw [row, hl.rootCandidate] at hh
    simp [Candidate.root] at hh
  · rcases Nat.lt_or_ge r m.board.candidates.size with hlt | hge
    · exact ⟨hpos, hlt⟩
    · rw [row, candidate, Array.getD_eq_getD_getElem?, Array.getElem?_eq_none hge] at hh
      simp [Candidate.root] at hh

theorem candidateOf_row (hl : m.Laid) (hh : h ∈ m.row r) : m.candidateOf h = r :=
  (hl.cell_row r (hl.hasCandidate hh) h hh).1

theorem hasConstraint_row (hl : m.Laid) (hh : h ∈ m.row r) : m.HasConstraint (m.constraintOf h) :=
  (hl.cell_row r (hl.hasCandidate hh) h hh).2

/-- The cells that are no headers are those of the rows. -/
theorem candidateOf_ne_zero_iff (hl : m.Laid) :
    m.candidateOf h ≠ 0 ↔ h ∈ m.row (m.candidateOf h) := by
  constructor
  · intro hr
    exact (hl.row_cell h hr).2
  · intro hh
    exact Nat.ne_of_gt (hl.hasCandidate hh).1

theorem mem_cellsOf_of_row (hl : m.Laid) (hh : h ∈ m.row r) :
    h ∈ m.cellsOf (m.constraintOf h) := by
  refine mem_cellsOf.mpr ⟨?_, rfl⟩
  rw [hl.candidateOf_row hh]
  exact Nat.ne_of_gt (hl.hasCandidate hh).1

/-- A candidate has one cell in a constraint at most. -/
theorem eq_of_constraintOf (hl : m.Laid) (hh : h ∈ m.row r) (hk : k ∈ m.row r)
    (hc : m.constraintOf h = m.constraintOf k) : h = k := by
  have hd : ((m.row r).map m.constraintOf).Nodup :=
    (hl.row_ascending r (hl.hasCandidate hh)).imp fun hlt => Nat.ne_of_lt hlt
  exact List.inj_on_of_nodup_map hd hh hk hc

/-- Two cells of one constraint and one candidate are the same. -/
theorem eq_of_cellsOf (hl : m.Laid) {c : ConstraintId} (hh : h ∈ m.cellsOf c)
    (hk : k ∈ m.cellsOf c) (hr : m.candidateOf h = m.candidateOf k) : h = k := by
  obtain ⟨hh0, hhc⟩ := mem_cellsOf.mp hh
  obtain ⟨hk0, hkc⟩ := mem_cellsOf.mp hk
  have hhr := (hl.row_cell h hh0).2
  have hkr := (hl.row_cell k hk0).2
  rw [hr] at hhr
  exact hl.eq_of_constraintOf hhr hkr (hhc.trans hkc.symm)

/-- Down a constraint the candidates ascend. -/
theorem cellsOf_candidates (hl : m.Laid) (c : ConstraintId) :
    ((m.cellsOf c).map m.candidateOf).Pairwise (· < ·) := by
  rw [List.pairwise_map]
  refine (m.cellsOf_ascending c).imp_of_mem ?_
  intro h k hh hk hlt
  have hle := hl.in_order h k hlt (mem_cellsOf.mp hh).1 (mem_cellsOf.mp hk).1
  exact Nat.lt_of_le_of_ne hle fun hr => Nat.ne_of_lt hlt (hl.eq_of_cellsOf hh hk hr)

/-- A candidate satisfies a constraint when it has a cell among the constraint's. -/
theorem hits_iff (hl : m.Laid) {c : ConstraintId} :
    m.Hits r c ↔ ∃ h ∈ m.cellsOf c, m.candidateOf h = r := by
  constructor
  · intro h'
    obtain ⟨h, hh, rfl⟩ := h'
    exact ⟨h, hl.mem_cellsOf_of_row hh, hl.candidateOf_row hh⟩
  · intro h'
    obtain ⟨h, hh, rfl⟩ := h'
    obtain ⟨hr, hc⟩ := mem_cellsOf.mp hh
    exact ⟨h, (hl.row_cell h hr).2, hc⟩

theorem constraintOf_head (hl : m.Laid) {c : ConstraintId} (hc : m.HasConstraint c) :
    m.constraintOf (m.head c) = c := by
  rw [constraintOf, hl.cell_head c hc]

/-! ## Going round a row -/

/-- The cells to the right, going round, are the others of the row. -/
theorem mem_rightOf (hl : m.Laid) (hh : h ∈ m.row r) :
    k ∈ m.rightOf h ↔ k ∈ m.row r ∧ k ≠ h := by
  have hr := hl.candidateOf_row hh
  rw [rightOf, hr]
  exact mem_round (List.mem_range'_1.mp hh)

/-- They are one less than the cells of the row. -/
theorem length_rightOf (hl : m.Laid) (hh : h ∈ m.row r) :
    (m.rightOf h).length = (m.candidate r).size - 1 := by
  have hr := hl.candidateOf_row hh
  have hrange := List.mem_range'_1.mp hh
  rw [rightOf, hr, List.length_append, List.length_range', List.length_range']
  omega

theorem nodup_rightOf (m : Matrix P) (h : CellId) : (m.rightOf h).Nodup :=
  nodup_round _ _ h

/-- A cell and those to the right of it are the whole row. -/
theorem mem_cons_rightOf (hl : m.Laid) (hh : h ∈ m.row r) :
    k ∈ h :: m.rightOf h ↔ k ∈ m.row r := by
  rw [List.mem_cons, hl.mem_rightOf hh]
  constructor
  · intro h'
    rcases h' with rfl | ⟨hk, -⟩
    · exact hh
    · exact hk
  · intro hk
    exact (Decidable.em (k = h)).imp id fun hne => ⟨hk, hne⟩

theorem nodup_cons_rightOf (hl : m.Laid) (hh : h ∈ m.row r) : (h :: m.rightOf h).Nodup :=
  List.nodup_cons.mpr ⟨fun hk => ((hl.mem_rightOf hh).mp hk).2 rfl, nodup_rightOf m h⟩

/-- The candidate of a cell has its first cell in its row. -/
theorem firstCell_mem (hl : m.Laid) (hr : m.HasCandidate r) : m.firstCell r ∈ m.row r := by
  have := hl.size_pos r hr
  simp only [firstCell, row, List.mem_range'_1]
  omega

end Laid

end ExactCover.Matrix
