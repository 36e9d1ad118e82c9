/-
ExactCover.Proofs.Coherence — the representation invariant, kept by every
operation and restored by every inverse.

`Threaded` says that the circles of a matrix are what its flags say: an uncovered
constraint's column consists of the cells of active candidates, and a covered
one's of whatever was left when it was covered. `Coherent` adds that an active
candidate touches no covered constraint. Covering breaks the second half while it
goes through its rows and ends with both, so the row lemmas below ask for
`Threaded` alone, with `Exposed` for the rows still to come.

What an operation does to the flags is told by `Narrows`, and its inverse gives
back the very same matrix:

- `Coherent.cover`, `Coherent.narrows_cover`, `Coherent.uncover_cover`;
- `Coherent.covers` and its kin, for several constraints one after another;
- `Coherent.place`, `Coherent.coverRow`, `Coherent.eliminateRow` and their kin.

No statement speaks about the links of what is unlinked. They are part of the
matrix that an inverse gives back, and that is all that is ever asked of them.
-/
import ExactCover.Matrix.Hint
import ExactCover.Proofs.Threads

namespace ExactCover.Matrix

variable {P : Type}

/-- The circles are what the flags say. -/
structure Threaded (m : Matrix P) : Prop where
  laid : m.Laid
  constraints : m.ConstraintsThreaded
  candidates : m.CandidatesThreaded
  columns : m.ColumnsThreaded
  open_column : ∀ c, m.HasConstraint c → m.isCovered c = false →
    m.column c = (m.cellsOf c).filter fun h => m.isCandidateActive (m.candidateOf h)

/-- The representation invariant. -/
structure Coherent (m : Matrix P) : Prop extends Threaded m where
  settled : ∀ r c, m.isCandidateActive r = true → m.Hits r c → m.isCovered c = false

/-- `n` is `m` with the constraints `cs` covered and the candidates `gone` ruled out. -/
structure Narrows (m n : Matrix P) (cs : ConstraintId → Prop) (gone : CandidateId → Prop) :
    Prop where
  board : n.board = m.board
  covered : ∀ c, n.isCovered c = true ↔ m.isCovered c = true ∨ cs c
  active : ∀ r, n.isCandidateActive r = true ↔ m.isCandidateActive r = true ∧ ¬ gone r

theorem Narrows.refl (m : Matrix P) : m.Narrows m (fun _ => False) (fun _ => False) :=
  ⟨rfl, fun c => by simp, fun r => by simp⟩

theorem Narrows.trans {m n o : Matrix P} {cs ds : ConstraintId → Prop}
    {gone lost : CandidateId → Prop} (h : m.Narrows n cs gone) (k : n.Narrows o ds lost) :
    m.Narrows o (fun c => cs c ∨ ds c) (fun r => gone r ∨ lost r) := by
  refine ⟨k.board.trans h.board, fun c => ?_, fun r => ?_⟩
  · rw [k.covered, h.covered, or_assoc]
  · rw [k.active, h.active, not_or, and_assoc]

/-- The same narrowing in other words. -/
theorem Narrows.congr {m n : Matrix P} {cs ds : ConstraintId → Prop}
    {gone lost : CandidateId → Prop} (h : m.Narrows n cs gone) (hc : ∀ c, cs c ↔ ds c)
    (hr : ∀ r, m.isCandidateActive r = true → (gone r ↔ lost r)) : m.Narrows n ds lost := by
  refine ⟨h.board, fun c => ?_, fun r => ?_⟩
  · rw [h.covered, hc]
  · rw [h.active]
    constructor
    · intro h'
      obtain ⟨ha, hg⟩ := h'
      exact ⟨ha, fun hl => hg ((hr r ha).mpr hl)⟩
    · intro h'
      obtain ⟨ha, hl⟩ := h'
      exact ⟨ha, fun hg => hl ((hr r ha).mp hg)⟩

/-! ## Taking out a candidate -/

/-- Takes cells of a candidate out of their columns, and the candidate off the active ones. -/
def withdraw (m : Matrix P) (xs : List CellId) (r : CandidateId) : Matrix P :=
  (xs.foldl unlinkCell m).unlinkCandidate r

/-- Puts the candidate and its cells back. -/
def reinstate (m : Matrix P) (xs : List CellId) (r : CandidateId) : Matrix P :=
  xs.reverse.foldl relinkCell (m.relinkCandidate r)

theorem hideRow_eq_withdraw (m : Matrix P) (h : CellId) :
    m.hideRow h = m.withdraw (m.rightOf h) (m.candidateOf h) := rfl

theorem showRow_eq_reinstate (m : Matrix P) (h : CellId) :
    m.showRow h = m.reinstate (m.rightOf h) (m.candidateOf h) := rfl

theorem eliminateRow_eq_withdraw (m : Matrix P) (h : CellId) :
    (m.eliminateRow h).matrix = m.withdraw (h :: m.rightOf h) (m.candidateOf h) := rfl

theorem restoreRow_eq_reinstate (m : Matrix P) (h : CellId) :
    (m.restoreRow h).matrix = m.reinstate (h :: m.rightOf h) (m.candidateOf h) := by
  simp only [restoreRow, reinstate, leftOf, List.reverse_cons]

theorem withdraw_frame (m : Matrix P) (xs : List CellId) (r : CandidateId) :
    (m.withdraw xs r).board = m.board ∧
      (m.withdraw xs r).links.constraints = m.links.constraints ∧
      (m.withdraw xs r).links.covered = m.links.covered ∧
      (m.withdraw xs r).links.activeConstraints = m.links.activeConstraints := by
  unfold withdraw
  rw [foldl_unlinkCell_frame]
  exact ⟨rfl, rfl, rfl, rfl⟩

theorem isCovered_withdraw (m : Matrix P) (xs : List CellId) (r : CandidateId) :
    (m.withdraw xs r).isCovered = m.isCovered := by
  funext c; simp only [isCovered, (withdraw_frame m xs r).2.2.1]

namespace Threaded

variable {m : Matrix P} {r : CandidateId} {c : ConstraintId} {h x : CellId} {xs : List CellId}

/-- The cells of an open column are those of its active candidates. -/
theorem mem_column (hm : m.Threaded) (hc : m.HasConstraint c) (hu : m.isCovered c = false) :
    x ∈ m.column c ↔ x ∈ m.cellsOf c ∧ m.isCandidateActive (m.candidateOf x) = true := by
  rw [hm.open_column c hc hu, List.mem_filter]

/-- A cell of an active candidate is linked where its constraint is open. -/
theorem isLinked (hm : m.Threaded) (ha : m.isCandidateActive r = true) (hx : x ∈ m.row r)
    (hu : m.isCovered (m.constraintOf x) = false) : m.IsLinked x := by
  have hc := hm.laid.hasConstraint_row hx
  refine ⟨hc, (hm.mem_column hc hu).mpr ⟨hm.laid.mem_cellsOf_of_row hx, ?_⟩⟩
  rw [hm.laid.candidateOf_row hx]
  exact ha

theorem isCandidateActive_withdraw (hm : m.Threaded) (ha : m.isCandidateActive r = true)
    (xs : List CellId) (q : CandidateId) :
    (m.withdraw xs r).isCandidateActive q = (m.isCandidateActive q && decide (q ≠ r)) := by
  have hr := hm.candidates.lt_active (hm.candidates.hasCandidate ha)
  unfold withdraw
  rw [foldl_unlinkCell_frame]
  exact isCandidateActive_unlinkCandidate hr q

/-- `xs` are the cells of `r` in open constraints. -/
def OpenCells (m : Matrix P) (xs : List CellId) (r : CandidateId) : Prop :=
  xs.Nodup ∧ ∀ x, x ∈ xs ↔ x ∈ m.row r ∧ m.isCovered (m.constraintOf x) = false

theorem isLinked_openCells (hm : m.Threaded) (ha : m.isCandidateActive r = true)
    (hxs : OpenCells m xs r) : ∀ x ∈ xs, m.IsLinked x := by
  intro x hx
  obtain ⟨hrow, hu⟩ := (hxs.2 x).mp hx
  exact hm.isLinked ha hrow hu

/-- A covered column stays as it is when a candidate leaves the open ones. -/
theorem column_withdraw_covered (hm : m.Threaded) (ha : m.isCandidateActive r = true)
    (hxs : OpenCells m xs r) (hc : m.HasConstraint c) (hcov : m.isCovered c = true) :
    (m.withdraw xs r).column c = m.column c := by
  obtain ⟨-, hcol⟩ :=
    hm.columns.foldl_unlinkCell hm.laid hxs.1 (hm.isLinked_openCells ha hxs)
  show (xs.foldl unlinkCell m).column c = m.column c
  rw [hcol c hc, List.filter_eq_self]
  intro y hy
  have hyc := hm.columns.constraintOf_of_mem hc hy
  have : y ∉ xs := by
    intro hyx
    have := ((hxs.2 y).mp hyx).2
    rw [hyc, hcov] at this
    cases this
  simpa using this

/-- Withdrawing a candidate from all open columns keeps the circles in step with the flags. -/
theorem withdraw (hm : m.Threaded) (ha : m.isCandidateActive r = true)
    (hxs : OpenCells m xs r) : (m.withdraw xs r).Threaded := by
  obtain ⟨hb, hring, hflag, hcount⟩ := withdraw_frame m xs r
  obtain ⟨hthread, hcol⟩ :=
    hm.columns.foldl_unlinkCell hm.laid hxs.1 (hm.isLinked_openCells ha hxs)
  have hr := hm.candidates.hasCandidate ha
  refine ⟨hm.laid.of_board hb,
    hm.constraints.congr (congrArg Board.constraints hb) hring hflag hcount, ?_, ?_, ?_⟩
  · have hfold : (xs.foldl unlinkCell m).CandidatesThreaded := by
      rw [foldl_unlinkCell_frame]
      exact hm.candidates.congr rfl rfl rfl rfl
    refine hfold.unlinkCandidate ?_ ?_
    · rw [foldl_unlinkCell_frame]
      exact hr
    · rw [foldl_unlinkCell_frame]
      exact ha
  · exact hthread.congr rfl rfl rfl
  · intro c hc hu
    rw [hasConstraint_of_board hb] at hc
    rw [isCovered_withdraw] at hu
    have hcolumn : (m.withdraw xs r).column c = (m.column c).filter (· ∉ xs) := hcol c hc
    rw [hcolumn, hm.open_column c hc hu, cellsOf_of_board hb, List.filter_filter]
    refine List.filter_congr fun x hx => ?_
    rw [candidateOf_of_board hb, hm.isCandidateActive_withdraw ha, Bool.and_comm]
    -- of the cells in `c`, those withdrawn are the one of `r`
    have hiff : x ∈ xs ↔ m.candidateOf x = r := by
      obtain ⟨hx0, hxc⟩ := mem_cellsOf.mp hx
      rw [hxs.2 x, hxc]
      constructor
      · intro h'
        obtain ⟨hrow, -⟩ := h'
        exact hm.laid.candidateOf_row hrow
      · rintro rfl
        exact ⟨(hm.laid.row_cell x hx0).2, hu⟩
    simp [hiff]

/-- A candidate that is reinstateted right after it was withdrawn leaves no trace. -/
theorem reinstate_withdraw (hm : m.Threaded) (ha : m.isCandidateActive r = true)
    (hxs : OpenCells m xs r) : (m.withdraw xs r).reinstate xs r = m := by
  have hfold : ((xs.foldl unlinkCell m).unlinkCandidate r).relinkCandidate r =
      xs.foldl unlinkCell m := by
    refine CandidatesThreaded.relinkCandidate_unlinkCandidate ?_ ?_ ?_
    · rw [foldl_unlinkCell_frame]
      exact hm.candidates.congr rfl rfl rfl rfl
    · rw [foldl_unlinkCell_frame]
      exact hm.candidates.hasCandidate ha
    · rw [foldl_unlinkCell_frame]
      exact ha
  unfold Matrix.withdraw reinstate
  rw [hfold]
  exact hm.columns.relink_foldl_unlinkCell hm.laid hxs.1 (hm.isLinked_openCells ha hxs)

/-! ## Hiding rows -/

/-- The candidate of a cell is active, and the cell is its only one in a covered constraint. -/
def Exposed (m : Matrix P) (h : CellId) : Prop :=
  m.isCandidateActive (m.candidateOf h) = true ∧
    ∀ x ∈ m.row (m.candidateOf h), m.isCovered (m.constraintOf x) = false ↔ x ≠ h

theorem Exposed.mem_row (hm : m.Threaded) (hh : Exposed m h) : h ∈ m.row (m.candidateOf h) := by
  have hr := (hm.candidates.hasCandidate hh.1).1
  exact (hm.laid.row_cell h (Nat.ne_of_gt hr)).2

theorem Exposed.openCells (hm : m.Threaded) (hh : Exposed m h) :
    OpenCells m (m.rightOf h) (m.candidateOf h) := by
  refine ⟨Laid.nodup_rightOf m h, fun x => ?_⟩
  rw [hm.laid.mem_rightOf (hh.mem_row hm)]
  constructor
  · intro h'
    obtain ⟨hx, hne⟩ := h'
    exact ⟨hx, (hh.2 x hx).mpr hne⟩
  · intro h'
    obtain ⟨hx, hu⟩ := h'
    exact ⟨hx, (hh.2 x hx).mp hu⟩

theorem hideRow (hm : m.Threaded) (hh : Exposed m h) : (m.hideRow h).Threaded :=
  hm.withdraw hh.1 (hh.openCells hm)

theorem showRow_hideRow (hm : m.Threaded) (hh : Exposed m h) : (m.hideRow h).showRow h = m := by
  have hb := (withdraw_frame m (m.rightOf h) (m.candidateOf h)).1
  rw [showRow_eq_reinstate, hideRow_eq_withdraw, rightOf_of_board hb, candidateOf_of_board hb]
  exact hm.reinstate_withdraw hh.1 (hh.openCells hm)

theorem narrows_hideRow (hm : m.Threaded) (hh : Exposed m h) :
    m.Narrows (m.hideRow h) (fun _ => False) (· = m.candidateOf h) := by
  refine ⟨(withdraw_frame m _ _).1, fun c => ?_, fun q => ?_⟩
  · rw [hideRow_eq_withdraw, isCovered_withdraw]
    simp
  · rw [hideRow_eq_withdraw, hm.isCandidateActive_withdraw hh.1]
    simp

/-- Hiding one row leaves those of other candidates exposed. -/
theorem exposed_hideRow (hm : m.Threaded) (hh : Exposed m h) {k : CellId} (hk : Exposed m k)
    (hne : m.candidateOf k ≠ m.candidateOf h) : Exposed (m.hideRow h) k := by
  have hb := (withdraw_frame m (m.rightOf h) (m.candidateOf h)).1
  rw [hideRow_eq_withdraw]
  refine ⟨?_, ?_⟩
  · rw [candidateOf_of_board hb, hm.isCandidateActive_withdraw hh.1]
    simp [hk.1, hne]
  · rw [candidateOf_of_board hb, row_of_board hb, constraintOf_of_board hb, isCovered_withdraw]
    exact hk.2

/-- What hiding the rows of several candidates does, and that showing them upward undoes it. -/
theorem hideRows {rows : List CellId} (hm : m.Threaded) (hd : (rows.map m.candidateOf).Nodup)
    (hx : ∀ h ∈ rows, Exposed m h) :
    (rows.foldl Matrix.hideRow m).Threaded ∧
      m.Narrows (rows.foldl Matrix.hideRow m) (fun _ => False) (· ∈ rows.map m.candidateOf) ∧
      (∀ c, m.HasConstraint c → m.isCovered c = true →
        (rows.foldl Matrix.hideRow m).column c = m.column c) ∧
      rows.reverse.foldl Matrix.showRow (rows.foldl Matrix.hideRow m) = m := by
  induction rows generalizing m with
  | nil => exact ⟨hm, (Narrows.refl m).congr (by simp) (by simp), fun _ _ _ => rfl, rfl⟩
  | cons h rows ih =>
    obtain ⟨hhd, hd⟩ := List.nodup_cons.mp hd
    have hh := hx h List.mem_cons_self
    have hn := hm.narrows_hideRow hh
    have hb := hn.board
    have hrest : ∀ k ∈ rows, Exposed (m.hideRow h) k := by
      intro k hk
      refine hm.exposed_hideRow hh (hx k (List.mem_cons_of_mem h hk)) fun e => hhd ?_
      exact e ▸ List.mem_map_of_mem hk
    rw [← candidateOf_of_board hb] at hd
    obtain ⟨hthread, hnarrow, hcol, hundo⟩ := ih (hm.hideRow hh) hd hrest
    rw [candidateOf_of_board hb] at hnarrow
    rw [hasConstraint_of_board hb] at hcol
    refine ⟨hthread, (hn.trans hnarrow).congr (by simp) (by simp), ?_, ?_⟩
    · intro c hc hcov
      have hcov' : (m.hideRow h).isCovered c = true := (hn.covered c).mpr (Or.inl hcov)
      rw [List.foldl_cons, hcol c hc hcov']
      exact hm.column_withdraw_covered hh.1 (hh.openCells hm) hc hcov
    · rw [List.foldl_cons, List.reverse_cons, List.foldl_append, hundo]
      exact hm.showRow_hideRow hh

end Threaded

/-! ## Covering a constraint -/

namespace Coherent

variable {m : Matrix P} {r : CandidateId} {c : ConstraintId} {h : CellId}

/-- The candidates of an open column are the active ones that satisfy its constraint. -/
theorem mem_column_candidates (hm : m.Coherent) (hc : m.HasConstraint c)
    (hu : m.isCovered c = false) :
    r ∈ (m.column c).map m.candidateOf ↔ m.isCandidateActive r = true ∧ m.Hits r c := by
  rw [List.mem_map, hm.laid.hits_iff]
  constructor
  · intro h'
    obtain ⟨x, hx, rfl⟩ := h'
    obtain ⟨hcell, ha⟩ := (hm.mem_column hc hu).mp hx
    exact ⟨ha, x, hcell, rfl⟩
  · intro h'
    obtain ⟨ha, x, hcell, rfl⟩ := h'
    exact ⟨x, (hm.mem_column hc hu).mpr ⟨hcell, ha⟩, rfl⟩

/-- Down a column the candidates ascend. -/
theorem column_ascending (hm : m.Coherent) (hc : m.HasConstraint c) :
    ((m.column c).map m.candidateOf).Pairwise (· < ·) :=
  (hm.laid.cellsOf_candidates c).sublist ((hm.columns.sublist c hc).map m.candidateOf)

theorem column_candidates_nodup (hm : m.Coherent) (hc : m.HasConstraint c) :
    ((m.column c).map m.candidateOf).Nodup :=
  (hm.column_ascending hc).imp fun hlt => Nat.ne_of_lt hlt

theorem threaded_unlinkConstraint (hm : m.Coherent) (hc : m.HasConstraint c)
    (hu : m.isCovered c = false) : (m.unlinkConstraint c).Threaded := by
  refine ⟨hm.laid.of_board rfl, hm.constraints.unlinkConstraint hc hu,
    hm.candidates.congr rfl rfl rfl rfl, hm.columns.congr rfl rfl rfl, ?_⟩
  intro d hd hud
  rw [isCovered_unlinkConstraint (hm.constraints.lt_covered hc)] at hud
  simp only [Bool.or_eq_false_iff] at hud
  exact hm.open_column d hd hud.1

/-- When a constraint has just been covered, its rows have one covered cell each. -/
theorem exposed_unlinkConstraint (hm : m.Coherent) (hc : m.HasConstraint c)
    (hu : m.isCovered c = false) (hh : h ∈ m.column c) :
    Threaded.Exposed (m.unlinkConstraint c) h := by
  obtain ⟨hcell, ha⟩ := (hm.mem_column hc hu).mp hh
  obtain ⟨h0, hhc⟩ := mem_cellsOf.mp hcell
  refine ⟨ha, fun x (hx : x ∈ m.row (m.candidateOf h)) => ?_⟩
  rw [isCovered_unlinkConstraint (hm.constraints.lt_covered hc)]
  show (m.isCovered (m.constraintOf x) || decide (m.constraintOf x = c)) = false ↔ x ≠ h
  have hopen : m.isCovered (m.constraintOf x) = false :=
    hm.settled _ _ ha ⟨x, hx, rfl⟩
  rw [hopen, Bool.false_or, decide_eq_false_iff_not]
  refine not_congr ⟨fun hxc => ?_, fun hxh => ?_⟩
  · exact hm.laid.eq_of_constraintOf hx (hm.laid.row_cell h h0).2 (hxc.trans hhc.symm)
  · rw [hxh, hhc]

/-- All that covering a constraint does. -/
theorem cover_facts (hm : m.Coherent) (hc : m.HasConstraint c) (hu : m.isCovered c = false) :
    (m.cover c).matrix.Threaded ∧
      m.Narrows (m.cover c).matrix (· = c) (· ∈ (m.column c).map m.candidateOf) ∧
      (m.cover c).matrix.column c = m.column c ∧
      (m.column c).reverse.foldl showRow (m.cover c).matrix = m.unlinkConstraint c := by
  have hx : ∀ h ∈ m.column c, Threaded.Exposed (m.unlinkConstraint c) h := fun h hh =>
    hm.exposed_unlinkConstraint hc hu hh
  have hcov := isCovered_unlinkConstraint (hm.constraints.lt_covered hc)
  obtain ⟨hthread, hnarrow, hcol, hundo⟩ :=
    (hm.threaded_unlinkConstraint hc hu).hideRows (hm.column_candidates_nodup hc) hx
  refine ⟨hthread, ⟨hnarrow.board, fun d => ?_, hnarrow.active⟩, ?_, hundo⟩
  · show ((m.column c).foldl hideRow (m.unlinkConstraint c)).isCovered d = true ↔ _
    rw [hnarrow.covered, hcov]
    simp
  · exact hcol c hc (by rw [hcov]; simp)

theorem narrows_cover (hm : m.Coherent) (hc : m.HasConstraint c) (hu : m.isCovered c = false) :
    m.Narrows (m.cover c).matrix (· = c) (m.Hits · c) := by
  refine (hm.cover_facts hc hu).2.1.congr (fun _ => Iff.rfl) fun r ha => ?_
  rw [hm.mem_column_candidates hc hu]
  exact ⟨fun hr => hr.2, fun hr => ⟨ha, hr⟩⟩

/-- Covering keeps the invariant. -/
theorem cover (hm : m.Coherent) (hc : m.HasConstraint c) (hu : m.isCovered c = false) :
    (m.cover c).matrix.Coherent := by
  have hn := hm.narrows_cover hc hu
  refine ⟨(hm.cover_facts hc hu).1, fun r d ha hh => ?_⟩
  rw [hits_of_board hn.board] at hh
  obtain ⟨ha, hgone⟩ := (hn.active r).mp ha
  refine Bool.eq_false_iff.mpr fun hcov => ?_
  rcases (hn.covered d).mp hcov with hcov | rfl
  · rw [hm.settled r d ha hh] at hcov
    cases hcov
  · exact hgone hh

theorem column_cover (hm : m.Coherent) (hc : m.HasConstraint c) (hu : m.isCovered c = false) :
    (m.cover c).matrix.column c = m.column c := (hm.cover_facts hc hu).2.2.1

/-- Uncovering right after covering gives the same matrix back, touches the same candidates the
other way round and counts the same updates. -/
theorem uncover_cover (hm : m.Coherent) (hc : m.HasConstraint c) (hu : m.isCovered c = false) :
    (m.cover c).matrix.uncover c = ⟨m, (m.cover c).touched.reverse, (m.cover c).updates⟩ := by
  obtain ⟨hthread, hn, hcol, hundo⟩ := hm.cover_facts hc hu
  have hb := hn.board
  have hup : (m.cover c).matrix.columnUpward c = (m.column c).reverse := by
    have hcircle := hthread.columns.circle c (by rw [hasConstraint_of_board hb]; exact hc)
    rw [← hcol]
    exact hcircle.backward_eq
  have hupdates : linkCount (m.cover c).matrix.leftOf (m.column c).reverse =
      linkCount m.rightOf (m.column c) := by
    rw [leftOf_of_board hb, linkCount_reverse, linkCount_leftOf]
  unfold uncover
  rw [hup]
  dsimp only
  rw [hundo, hupdates, candidateOf_of_board hb, List.map_reverse,
    hm.constraints.relinkConstraint_unlinkConstraint hc hu]
  rfl

/-! ## Covering several constraints -/

/-- `cs` are different open constraints. -/
def OpenList (m : Matrix P) (cs : List ConstraintId) : Prop :=
  cs.Nodup ∧ ∀ c ∈ cs, m.HasConstraint c ∧ m.isCovered c = false

theorem openList_cover (hm : m.Coherent) {cs : List ConstraintId} (hcs : OpenList m (c :: cs)) :
    OpenList (m.cover c).matrix cs := by
  obtain ⟨hc, hu⟩ := hcs.2 c List.mem_cons_self
  have hn := hm.narrows_cover hc hu
  obtain ⟨hcd, hd⟩ := List.nodup_cons.mp hcs.1
  refine ⟨hd, fun d hdm => ?_⟩
  obtain ⟨hdc, hdu⟩ := hcs.2 d (List.mem_cons_of_mem c hdm)
  rw [hasConstraint_of_board hn.board]
  refine ⟨hdc, Bool.eq_false_iff.mpr fun hcov => ?_⟩
  rcases (hn.covered d).mp hcov with hcov | rfl
  · rw [hdu] at hcov
    cases hcov
  · exact hcd hdm

theorem covers {cs : List ConstraintId} (hm : m.Coherent) (hcs : OpenList m cs) :
    (sequence Matrix.cover m cs).matrix.Coherent := by
  induction cs generalizing m with
  | nil => exact hm
  | cons c cs ih =>
    obtain ⟨hc, hu⟩ := hcs.2 c List.mem_cons_self
    exact ih (hm.cover hc hu) (hm.openList_cover hcs)

theorem narrows_covers {cs : List ConstraintId} (hm : m.Coherent) (hcs : OpenList m cs) :
    m.Narrows (sequence Matrix.cover m cs).matrix (· ∈ cs) (fun r => ∃ c ∈ cs, m.Hits r c) := by
  induction cs generalizing m with
  | nil => exact (Narrows.refl m).congr (by simp) (by simp)
  | cons c cs ih =>
    obtain ⟨hc, hu⟩ := hcs.2 c List.mem_cons_self
    have hn := hm.narrows_cover hc hu
    have hrest := ih (hm.cover hc hu) (hm.openList_cover hcs)
    rw [hits_of_board hn.board] at hrest
    exact (hn.trans hrest).congr (by simp) (by simp)

theorem sequence_append (f : Matrix P → ConstraintId → Effect P) (m : Matrix P)
    (as bs : List ConstraintId) :
    sequence f m (as ++ bs) =
      ⟨(sequence f (sequence f m as).matrix bs).matrix,
        (sequence f m as).touched ++ (sequence f (sequence f m as).matrix bs).touched,
        (sequence f m as).updates + (sequence f (sequence f m as).matrix bs).updates⟩ := by
  induction as generalizing m with
  | nil => simp [sequence]
  | cons a as ih =>
    simp only [List.cons_append, sequence, ih, List.append_assoc, Nat.add_assoc]

/-- Uncovering several constraints in the opposite order takes back covering them. -/
theorem uncovers_covers {cs : List ConstraintId} (hm : m.Coherent) (hcs : OpenList m cs) :
    sequence Matrix.uncover (sequence Matrix.cover m cs).matrix cs.reverse =
      ⟨m, (sequence Matrix.cover m cs).touched.reverse, (sequence Matrix.cover m cs).updates⟩ := by
  induction cs generalizing m with
  | nil => rfl
  | cons c cs ih =>
    obtain ⟨hc, hu⟩ := hcs.2 c List.mem_cons_self
    have hrest := ih (hm.cover hc hu) (hm.openList_cover hcs)
    have hone := hm.uncover_cover hc hu
    simp only [sequence, List.reverse_cons, sequence_append, hrest, hone, List.append_nil,
      List.reverse_append, Nat.add_zero]
    rw [Nat.add_comm]

/-! ## Covering the rest of a row -/

/-- Every constraint of the candidate of `h` is open, that of `h` itself apart. -/
def OthersOpen (m : Matrix P) (h : CellId) : Prop :=
  m.candidateOf h ≠ 0 ∧ ∀ x ∈ m.rightOf h, m.isCovered (m.constraintOf x) = false

theorem OthersOpen.openList (hm : m.Coherent) (hh : OthersOpen m h) :
    OpenList m ((m.rightOf h).map m.constraintOf) := by
  have hrow := (hm.laid.row_cell h hh.1).2
  constructor
  · refine List.Nodup.map_on ?_ (Laid.nodup_rightOf m h)
    intro x hx y hy
    exact hm.laid.eq_of_constraintOf ((hm.laid.mem_rightOf hrow).mp hx).1
      ((hm.laid.mem_rightOf hrow).mp hy).1
  · intro c hc
    obtain ⟨x, hx, rfl⟩ := List.mem_map.mp hc
    exact ⟨hm.laid.hasConstraint_row ((hm.laid.mem_rightOf hrow).mp hx).1, hh.2 x hx⟩

theorem coverRow (hm : m.Coherent) (hh : OthersOpen m h) : (m.coverRow h).matrix.Coherent :=
  hm.covers (hh.openList hm)

theorem narrows_coverRow (hm : m.Coherent) (hh : OthersOpen m h) :
    m.Narrows (m.coverRow h).matrix (fun c => ∃ x ∈ m.rightOf h, m.constraintOf x = c)
      (fun r => ∃ x ∈ m.rightOf h, m.Hits r (m.constraintOf x)) :=
  (hm.narrows_covers (hh.openList hm)).congr (by simp) (by simp)

theorem uncoverRow_coverRow (hm : m.Coherent) (hh : OthersOpen m h) :
    (m.coverRow h).matrix.uncoverRow h =
      ⟨m, (m.coverRow h).touched.reverse, (m.coverRow h).updates⟩ := by
  have hb : (m.coverRow h).matrix.board = m.board := (relinked_coverRow m h).board
  have hundo := hm.uncovers_covers (hh.openList hm)
  unfold uncoverRow
  rw [leftOf_of_board hb, constraintOf_of_board hb, leftOf, List.map_reverse]
  exact hundo

/-! ## Placing a candidate -/

/-- Two candidates have a constraint in common. -/
def Shares (m : Matrix P) (q r : CandidateId) : Prop := ∃ c, m.Hits q c ∧ m.Hits r c

theorem Shares.symm {q r : CandidateId} (h : Shares m q r) : Shares m r q := by
  obtain ⟨c, hq, hr⟩ := h
  exact ⟨c, hr, hq⟩

theorem hasCandidate (hm : m.Coherent) (ha : m.isCandidateActive r = true) : m.HasCandidate r :=
  hm.candidates.hasCandidate ha

theorem mem_row (hm : m.Coherent) (ha : m.isCandidateActive (m.candidateOf h) = true) :
    h ∈ m.row (m.candidateOf h) :=
  (hm.laid.row_cell h (Nat.ne_of_gt (hm.hasCandidate ha).1)).2

theorem candidateOf_firstCell (hm : m.Coherent) (ha : m.isCandidateActive r = true) :
    m.candidateOf (m.firstCell r) = r :=
  hm.laid.candidateOf_row (hm.laid.firstCell_mem (hm.hasCandidate ha))

/-- The constraint of a cell of an active candidate is open. -/
theorem open_of_active (hm : m.Coherent) (ha : m.isCandidateActive (m.candidateOf h) = true) :
    m.HasConstraint (m.constraintOf h) ∧ m.isCovered (m.constraintOf h) = false :=
  ⟨hm.laid.hasConstraint_row (hm.mem_row ha), hm.settled _ _ ha ⟨h, hm.mem_row ha, rfl⟩⟩

theorem othersOpen_cover (hm : m.Coherent)
    (ha : m.isCandidateActive (m.candidateOf h) = true) :
    OthersOpen (m.cover (m.constraintOf h)).matrix h := by
  obtain ⟨hc, hu⟩ := hm.open_of_active ha
  have hn := hm.narrows_cover hc hu
  rw [OthersOpen, candidateOf_of_board hn.board, rightOf_of_board hn.board,
    constraintOf_of_board hn.board]
  refine ⟨Nat.ne_of_gt (hm.hasCandidate ha).1, fun x hx => ?_⟩
  obtain ⟨hrow, hne⟩ := (hm.laid.mem_rightOf (hm.mem_row ha)).mp hx
  refine Bool.eq_false_iff.mpr fun hcov => ?_
  rcases (hn.covered _).mp hcov with hcov | hsame
  · rw [hm.settled _ _ ha ⟨x, hrow, rfl⟩] at hcov
    cases hcov
  · exact hne (hm.laid.eq_of_constraintOf hrow (hm.mem_row ha) hsame)

theorem place (hm : m.Coherent) (ha : m.isCandidateActive (m.candidateOf h) = true) :
    (m.place h).matrix.Coherent := by
  obtain ⟨hc, hu⟩ := hm.open_of_active ha
  exact (hm.cover hc hu).coverRow (hm.othersOpen_cover ha)

/-- Placing a candidate covers its constraints and rules out whatever shares one with it. -/
theorem narrows_place (hm : m.Coherent) (ha : m.isCandidateActive (m.candidateOf h) = true) :
    m.Narrows (m.place h).matrix (m.Hits (m.candidateOf h))
      (fun q => Shares m q (m.candidateOf h)) := by
  obtain ⟨hc, hu⟩ := hm.open_of_active ha
  have hn := hm.narrows_cover hc hu
  have hrest := (hm.cover hc hu).narrows_coverRow (hm.othersOpen_cover ha)
  rw [rightOf_of_board hn.board, constraintOf_of_board hn.board, hits_of_board hn.board] at hrest
  have hrow : ∀ x, x ∈ m.row (m.candidateOf h) ↔ x = h ∨ x ∈ m.rightOf h := fun x => by
    rw [← hm.laid.mem_cons_rightOf (hm.mem_row ha), List.mem_cons]
  refine (hn.trans hrest).congr (fun c => ?_) (fun q _ => ?_)
  · constructor
    · intro h'
      rcases h' with rfl | ⟨x, hx, rfl⟩
      · exact ⟨h, (hrow h).mpr (Or.inl rfl), rfl⟩
      · exact ⟨x, (hrow x).mpr (Or.inr hx), rfl⟩
    · intro h'
      obtain ⟨x, hx, rfl⟩ := h'
      rcases (hrow x).mp hx with rfl | hx
      · exact Or.inl rfl
      · exact Or.inr ⟨x, hx, rfl⟩
  · constructor
    · intro h'
      rcases h' with hq | ⟨x, hx, hq⟩
      · exact ⟨_, hq, h, (hrow h).mpr (Or.inl rfl), rfl⟩
      · exact ⟨_, hq, x, (hrow x).mpr (Or.inr hx), rfl⟩
    · intro h'
      obtain ⟨c, hq, x, hx, rfl⟩ := h'
      rcases (hrow x).mp hx with rfl | hx
      · exact Or.inl hq
      · exact Or.inr ⟨x, hx, hq⟩

theorem unplace_place (hm : m.Coherent) (ha : m.isCandidateActive (m.candidateOf h) = true) :
    (m.place h).matrix.unplace h = ⟨m, (m.place h).touched.reverse, (m.place h).updates⟩ := by
  obtain ⟨hc, hu⟩ := hm.open_of_active ha
  have hb : (m.place h).matrix.board = m.board :=
    (relinked_place m h).board
  have hrow : (m.place h).matrix.uncoverRow h = _ :=
    (hm.cover hc hu).uncoverRow_coverRow (hm.othersOpen_cover ha)
  have hone := hm.uncover_cover hc hu
  unfold unplace
  rw [constraintOf_of_board hb, hrow]
  dsimp only
  rw [hone]
  simp only [Matrix.place, List.reverse_append, Nat.add_comm]

/-! ## Eliminating a candidate -/

theorem openCells_row (hm : m.Coherent) (ha : m.isCandidateActive (m.candidateOf h) = true) :
    Threaded.OpenCells m (h :: m.rightOf h) (m.candidateOf h) := by
  refine ⟨hm.laid.nodup_cons_rightOf (hm.mem_row ha), fun x => ?_⟩
  rw [hm.laid.mem_cons_rightOf (hm.mem_row ha)]
  exact ⟨fun hx => ⟨hx, hm.settled _ _ ha ⟨x, hx, rfl⟩⟩, fun hx => hx.1⟩

theorem narrows_eliminateRow (hm : m.Coherent)
    (ha : m.isCandidateActive (m.candidateOf h) = true) :
    m.Narrows (m.eliminateRow h).matrix (fun _ => False) (· = m.candidateOf h) := by
  refine ⟨(withdraw_frame m _ _).1, fun c => ?_, fun q => ?_⟩
  · rw [eliminateRow_eq_withdraw, isCovered_withdraw]
    simp
  · rw [eliminateRow_eq_withdraw, hm.isCandidateActive_withdraw ha]
    simp

theorem eliminateRow (hm : m.Coherent) (ha : m.isCandidateActive (m.candidateOf h) = true) :
    (m.eliminateRow h).matrix.Coherent := by
  have hn := hm.narrows_eliminateRow ha
  refine ⟨hm.withdraw ha (hm.openCells_row ha), fun r c har hr => ?_⟩
  rw [hits_of_board hn.board] at hr
  rw [eliminateRow_eq_withdraw, isCovered_withdraw]
  exact hm.settled r c ((hn.active r).mp har).1 hr

theorem restoreRow_eliminateRow (hm : m.Coherent)
    (ha : m.isCandidateActive (m.candidateOf h) = true) :
    (m.eliminateRow h).matrix.restoreRow h =
      ⟨m, (m.eliminateRow h).touched, (m.eliminateRow h).updates⟩ := by
  have hb : (m.eliminateRow h).matrix.board = m.board := (relinked_eliminateRow m h).board
  have hback : ((m.eliminateRow h).matrix.restoreRow h).matrix = m := by
    rw [restoreRow_eq_reinstate, rightOf_of_board hb, candidateOf_of_board hb,
      eliminateRow_eq_withdraw]
    exact hm.reinstate_withdraw ha (hm.openCells_row ha)
  have htouched : ((m.eliminateRow h).matrix.restoreRow h).touched = (m.eliminateRow h).touched :=
    congrArg (fun r => [r]) (congrFun (candidateOf_of_board hb) h)
  have hupdates : ((m.eliminateRow h).matrix.restoreRow h).updates =
      (m.eliminateRow h).updates := by
    show ((m.eliminateRow h).matrix.leftOf h ++ [h]).length = (h :: m.rightOf h).length
    rw [leftOf_of_board hb, leftOf, List.length_append, List.length_reverse]
    rfl
  exact (Effect.mk.injEq ..).mpr ⟨hback, htouched, hupdates⟩

end Coherent

end ExactCover.Matrix
