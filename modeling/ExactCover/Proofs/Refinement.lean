/-
ExactCover.Proofs.Refinement — a search of a matrix is the search on plain lists.

`Matrix.problem` reads what is left of a matrix off its flags. The circles say the
same: the column of a constraint lists the rows left of it, so a search branches on
the constraint on which the plain search branches, tries the rows in the same order
and counts the same updates. A cover drops the constraint and its rows from the
problem, and a choice drops all constraints of the candidate and their rows
(`Coherent.problem_chosen`).

`Along` is the path to a node: the matrix there, and the places of the cells that were
chosen on the way to it. `Simulates` says that a search of a matrix has the outcome of
a plain one. One lemma for each of the search's functions carries it up the tree, and
`Reached.search_refines` is the result.
-/
import Mathlib.Data.List.Sort
import ExactCover.Proofs.Justification
import ExactCover.Proofs.PlainSearch
import ExactCover.Search.Solutions

namespace ExactCover

/-! ## What a matrix stands for -/

namespace Matrix

variable {P : Type} {m n : Matrix P} {c : ConstraintId} {h : CellId}

/-- A candidate with the constraints that it satisfies. -/
def asRow (m : Matrix P) (r : CandidateId) : Row := ⟨r, (m.row r).map m.constraintOf⟩

/-- What is left of a matrix, by its flags. -/
def problem (m : Matrix P) : Problem where
  size := m.constraintCount
  constraints := m.openConstraints
  rows := m.openCandidates.map m.asRow

theorem mem_asRow {r : CandidateId} : c ∈ (m.asRow r).constraints ↔ m.Hits r c := List.mem_map

theorem asRow_of_board (e : n.board = m.board) : n.asRow = m.asRow := by
  funext r; simp only [asRow, row_of_board e, constraintOf_of_board e]

/-- What other fields than the board and the links are is no part of the problem. -/
theorem problem_of_links (hb : n.board = m.board) (hl : n.links = m.links) :
    n.problem = m.problem := by
  cases m; cases n; cases hb; cases hl
  rfl

/-- Covering some constraints drops them and all that satisfies one of them. -/
theorem Narrows.problem_eq {cs : List ConstraintId}
    (hn : m.Narrows n (· ∈ cs) fun r => ∃ c ∈ cs, m.Hits r c) :
    n.problem = m.problem.without cs := by
  have hconstraint : n.isConstraintActive = fun c =>
      decide (c ∉ cs) && m.isConstraintActive c := by
    funext c
    have hcov := hn.covered c
    simp only [isConstraintActive, isPrimary_of_board hn.board]
    cases hm : m.isCovered c with
    | true =>
      rw [(hcov.mpr (Or.inl hm)), Bool.not_true, Bool.and_false, Bool.and_false]
    | false =>
      rw [hm] at hcov
      by_cases hc : c ∈ cs
      · simp [hc, hcov.mpr (Or.inr hc)]
      · have hopen : n.isCovered c = false :=
          Bool.eq_false_iff.mpr fun h' => (hcov.mp h').elim Bool.false_ne_true hc
        simp [hc, hopen]
  have hcandidate : n.isCandidateActive = fun r =>
      decide (∀ c ∈ (m.asRow r).constraints, c ∉ cs) && m.isCandidateActive r := by
    funext r
    rw [Bool.eq_iff_iff, hn.active, Bool.and_eq_true, decide_eq_true_eq, and_comm]
    refine and_congr_left fun _ => ?_
    simp only [mem_asRow, not_exists, not_and]
    exact ⟨fun hgone c hr hc => hgone c hc hr, fun hgone c hc hr => hgone c hr hc⟩
  refine (Problem.mk.injEq ..).mpr ⟨?_, ?_, ?_⟩
  · show n.constraintCount = m.constraintCount
    rw [constraintCount, constraintCount, hn.board]
  · show n.openConstraints = m.openConstraints.filter fun c => c ∉ cs
    rw [openConstraints, openConstraints, constraintCount, constraintCount, hn.board,
      List.filter_filter, hconstraint]
  · show n.openCandidates.map n.asRow =
      (m.openCandidates.map m.asRow).filter fun row => ∀ c ∈ row.constraints, c ∉ cs
    rw [openCandidates, openCandidates, candidateCount, candidateCount, hn.board,
      asRow_of_board hn.board, List.filter_map, List.filter_filter, hcandidate]
    rfl

namespace Coherent

/-- The column of an open constraint holds the rows left of it in their order. -/
theorem rowsOf_problem (hm : m.Coherent) (hc : m.HasConstraint c) (hu : m.isCovered c = false) :
    m.problem.rowsOf c = (m.column c).map fun h => m.asRow (m.candidateOf h) := by
  have hsame : m.openCandidates.filter (fun r => c ∈ (m.asRow r).constraints) =
      (m.column c).map m.candidateOf := by
    refine List.Pairwise.eq_of_mem_iff (r := (· < ·)) ?_ (hm.column_ascending hc) fun r => ?_
    · rw [← hm.candidates.activeCandidates_eq]
      exact hm.activeCandidates_ascending.filter _
    · rw [List.mem_filter, ← hm.candidates.activeCandidates_eq, hm.mem_activeCandidates,
        decide_eq_true_eq, mem_asRow, hm.mem_column_candidates hc hu]
  rw [Problem.rowsOf, problem, List.filter_map]
  calc ((m.openCandidates.filter fun r => c ∈ (m.asRow r).constraints).map m.asRow)
      = ((m.column c).map m.candidateOf).map m.asRow := by rw [hsame]
    _ = (m.column c).map fun h => m.asRow (m.candidateOf h) := List.map_map

theorem degree_problem (hm : m.Coherent) (hc : m.HasConstraint c) (hu : m.isCovered c = false) :
    m.problem.degree c = m.len c := by
  rw [Problem.degree, hm.rowsOf_problem hc hu, List.length_map, hm.len_eq hc]

/-- A search branches on the constraint on which the plain search branches. -/
theorem shortest_problem (hm : m.Coherent) :
    m.problem.shortest? = Search.chooseConstraint m := by
  have hdegree : ∀ c ∈ m.activeConstraints, m.problem.degree c = m.len c := by
    intro c hc
    obtain ⟨hcon, -, hu⟩ := hm.mem_activeConstraints.mp hc
    exact hm.degree_problem hcon hu
  rw [Problem.shortest?_eq_argmin, Search.chooseConstraint_eq_argmin]
  show m.openConstraints.argmin m.problem.degree = _
  rw [← hm.constraints.activeConstraints_eq]
  ext c
  simp only [List.argmin_eq_some_iff]
  constructor
  · rintro ⟨hc, hleast, hfirst⟩
    refine ⟨hc, fun d hd => ?_, fun d hd hle => hfirst d hd ?_⟩
    · rw [← hdegree c hc, ← hdegree d hd]
      exact hleast d hd
    · rw [hdegree c hc, hdegree d hd]
      exact hle
  · rintro ⟨hc, hleast, hfirst⟩
    refine ⟨hc, fun d hd => ?_, fun d hd hle => hfirst d hd ?_⟩
    · rw [hdegree c hc, hdegree d hd]
      exact hleast d hd
    · rw [← hdegree c hc, ← hdegree d hd]
      exact hle

/-! ## What a cover does and costs -/

theorem problem_cover (hm : m.Coherent) (hc : m.HasConstraint c) (hu : m.isCovered c = false) :
    (m.cover c).matrix.problem = m.problem.without [c] :=
  ((hm.narrows_cover hc hu).congr (by simp) (by simp)).problem_eq

theorem updates_cover (hm : m.Coherent) (hc : m.HasConstraint c) (hu : m.isCovered c = false) :
    (m.cover c).updates = m.problem.coverCost c := by
  show linkCount m.rightOf (m.column c) = _
  rw [linkCount, Problem.coverCost, hm.rowsOf_problem hc hu, Row.others, List.map_map]
  congr 2
  refine List.map_congr_left fun h hh => ?_
  have hactive := ((hm.mem_column_candidates hc hu).mp (List.mem_map_of_mem hh)).1
  rw [hm.laid.length_rightOf (hm.mem_row hactive), Function.comp_apply, asRow, List.length_map,
    row, List.length_range']

/-- Covering constraints one after another costs what it does on lists. -/
theorem updates_covers {cs : List ConstraintId} (hm : m.Coherent) (hcs : OpenList m cs) :
    (sequence Matrix.cover m cs).updates = m.problem.coverCosts cs := by
  induction cs generalizing m with
  | nil => rfl
  | cons c cs ih =>
    obtain ⟨hc, hu⟩ := hcs.2 c List.mem_cons_self
    have hrest := ih (hm.cover hc hu) (hm.openList_cover hcs)
    rw [hm.problem_cover hc hu] at hrest
    show (m.cover c).updates + (sequence Matrix.cover (m.cover c).matrix cs).updates = _
    rw [hm.updates_cover hc hu, hrest, Problem.coverCosts]

/-- Going round the row from the cell of a constraint meets the other constraints of its
candidate. -/
theorem perm_others (hm : m.Coherent) (ha : m.isCandidateActive (m.candidateOf h) = true) :
    ((m.rightOf h).map m.constraintOf).Perm
      ((m.asRow (m.candidateOf h)).constraints.filter (· ≠ m.constraintOf h)) := by
  have hrow := hm.mem_row ha
  have hd : (m.row (m.candidateOf h)).Nodup := List.nodup_range'
  have hcells : (m.rightOf h).Perm ((m.row (m.candidateOf h)).filter (· ≠ h)) := by
    refine (List.perm_ext_iff_of_nodup (Laid.nodup_rightOf m h) (hd.filter _)).mpr fun x => ?_
    rw [hm.laid.mem_rightOf hrow, List.mem_filter, decide_eq_true_eq]
  rw [asRow, List.filter_map]
  refine (hcells.map m.constraintOf).trans (List.Perm.of_eq (congrArg _ ?_))
  refine List.filter_congr fun x hx => decide_eq_decide.mpr (not_congr ?_)
  exact ⟨congrArg m.constraintOf, hm.laid.eq_of_constraintOf hx hrow⟩

/-- To choose a row when its constraint has been covered costs what it does to drop its other
constraints. -/
theorem updates_coverRow (hm : m.Coherent) (ha : m.isCandidateActive (m.candidateOf h) = true) :
    ((m.cover (m.constraintOf h)).matrix.coverRow h).updates =
      (m.problem.without [m.constraintOf h]).coverCosts
        ((m.asRow (m.candidateOf h)).constraints.filter (· ≠ m.constraintOf h)) := by
  obtain ⟨hc, hu⟩ := hm.open_of_active ha
  have hn := hm.cover hc hu
  have hb := (relinked_cover m (m.constraintOf h)).board
  have hcosts := hn.updates_covers ((hm.othersOpen_cover ha).openList hn)
  rw [hm.problem_cover hc hu, rightOf_of_board hb, constraintOf_of_board hb,
    Problem.coverCosts_perm _ (hm.perm_others ha)] at hcosts
  unfold Matrix.coverRow
  rw [rightOf_of_board hb, constraintOf_of_board hb]
  exact hcosts

/-- A choice drops the constraints of the candidate and every row that satisfies one of them. -/
theorem problem_chosen (hm : m.Coherent) (ha : m.isCandidateActive (m.candidateOf h) = true) :
    (Search.chosen m h).problem =
      m.problem.without (m.asRow (m.candidateOf h)).constraints := by
  have hn := hm.narrows_place ha
  calc (Search.chosen m h).problem = (m.place h).matrix.problem := problem_of_links rfl rfl
    _ = _ := (hn.congr (fun _ => mem_asRow.symm) fun q _ => by
      simp only [Coherent.Shares, mem_asRow, and_comm]).problem_eq

end Coherent

/-! ## The way to a node -/

/-- The cell at a place. -/
def cellAt (m : Matrix P) (x : Cell) : CellId :=
  ((m.row x.candidate).find? fun h => m.constraintOf h == x.constraint).getD 0

/-- The matrix in which the cells at some places have been chosen one after another. -/
def follow (m : Matrix P) (cells : List Cell) : Matrix P :=
  cells.foldl (fun m x => Search.chosen m (m.cellAt x)) m

/-- A search of `m₀` comes to this matrix by choosing the cells at these places. -/
inductive Along (m₀ : Matrix P) : List Cell → Matrix P → Prop
  | start : Along m₀ [] m₀
  | choose {cells : List Cell} {m : Matrix P} {h : CellId} :
      Along m₀ cells m → m.Coherent → m.isCandidateActive (m.candidateOf h) = true →
      Along m₀ (cells ++ [m.cell h]) (Search.chosen m h)

theorem Coherent.cellAt_cell (hm : m.Coherent)
    (ha : m.isCandidateActive (m.candidateOf h) = true) : m.cellAt (m.cell h) = h := by
  have hrow := hm.mem_row ha
  unfold cellAt
  show ((m.row (m.candidateOf h)).find? fun x => m.constraintOf x == m.constraintOf h).getD 0 = h
  cases hfind : (m.row (m.candidateOf h)).find? fun x => m.constraintOf x == m.constraintOf h with
  | none => exact absurd (beq_self_eq_true _) (List.find?_eq_none.mp hfind h hrow)
  | some x =>
    have hx := List.mem_of_find?_eq_some hfind
    have hsame := List.find?_some hfind
    exact hm.laid.eq_of_constraintOf hx hrow (beq_iff_eq.mp hsame)

theorem Along.follow_eq {m₀ : Matrix P} {cells : List Cell} (h : Along m₀ cells m) :
    m₀.follow cells = m := by
  induction h with
  | start => rfl
  | choose _ hm ha ih =>
    unfold follow at ih ⊢
    rw [List.foldl_append, ih, List.foldl_cons, List.foldl_nil, hm.cellAt_cell ha]

/-- The chosen candidates have been placed after those that were placed before. -/
theorem Along.solutionCandidates_eq {m₀ : Matrix P} {cells : List Cell} (h : Along m₀ cells m) :
    m.solutionCandidates = m₀.solutionCandidates ++ cells.map Cell.candidate := by
  induction h with
  | start => exact (List.append_nil _).symm
  | choose _ _ _ ih =>
    rw [Search.chosen, solutionCandidates_solve, ih, List.map_append, List.append_assoc]
    rfl

end Matrix

/-! ## Simulation -/

/-- The visitor that is shown the solutions and nothing else. -/
def Visitor.ofCallback {P σ : Type} (f : σ → Matrix P → σ × Bool) : Visitor P σ :=
  ⟨fun s _ _ _ => s, f⟩

/-- What a search has come to apart from its matrix, and how it ended. -/
def Descent.outcome {P σ : Type} (out : Descent P σ × Ending) : Progress σ × Ending :=
  (⟨out.1.stats, out.1.found, out.1.state⟩, out.2)

namespace Search

variable {P σ : Type}

/-- A search has the outcome of a plain one when it is given the matrix `m`. -/
def Simulates (m : Matrix P) (inner : Descent P σ → Descent P σ × Ending)
    (plain : Progress σ → Progress σ × Ending) : Prop :=
  ∀ d, d.matrix = m → Descent.outcome (inner d) = plain ⟨d.stats, d.found, d.state⟩

section Simulated

variable {m : Matrix P} (level : Nat) {f : σ → Matrix P → σ × Bool}
  {inner : Descent P σ → Descent P σ × Ending}

theorem underChoice_simulates {h : CellId} {plain : Progress σ → Progress σ × Ending}
    (hi : Simulates ((m.coverRow h).matrix.pushSolution h) inner plain) :
    Simulates m (underChoice (.ofCallback f) level h inner) fun r =>
      plain { r with stats := r.stats.recordUpdates level (m.coverRow h).updates } := by
  rintro d rfl
  exact hi (choosing (.ofCallback f) level h d) rfl

/-- Rows that are tried one after another have the outcome of plain rows that are. -/
theorem tryRows_simulates (hm : m.Coherent) {rows : List CellId}
    (plain : CellId → Progress σ → Progress σ × Ending)
    (hrows : ∀ h ∈ rows, Matrix.Coherent.OthersOpen m h)
    (hback : ∀ h ∈ rows, HandsBack ((m.coverRow h).matrix.pushSolution h) inner)
    (hi : ∀ h ∈ rows, Simulates ((m.coverRow h).matrix.pushSolution h) inner (plain h)) :
    Simulates m (tryRows (.ofCallback f) level inner rows)
      (Problem.tryEach (fun h r =>
        plain h { r with stats := r.stats.recordUpdates level (m.coverRow h).updates }) rows) := by
  induction rows with
  | nil => exact fun _ _ => rfl
  | cons h rows ih =>
    intro d hd
    have hone := underChoice_simulates (f := f) level (hi h List.mem_cons_self) d hd
    have hmatrix := underChoice_matrix level (.ofCallback f) hm (hrows h List.mem_cons_self)
      (hback h List.mem_cons_self) d hd
    have hrest := ih (fun k hk => hrows k (List.mem_cons_of_mem h hk))
      (fun k hk => hback k (List.mem_cons_of_mem h hk))
      (fun k hk => hi k (List.mem_cons_of_mem h hk))
    unfold tryRows Problem.tryEach
    dsimp only at hone ⊢
    rw [← hone]
    generalize underChoice (.ofCallback f) level h inner d = first at hmatrix
    obtain ⟨d', ending⟩ := first
    cases ending with
    | exhausted => exact hrest d' hmatrix
    | stopped => rfl
    | failed e => rfl

/-- Below an open constraint the plain search pays for covering it, and tries the rows left of
it. -/
theorem underRows_simulates {c : ConstraintId} (hm : m.Coherent) (hc : m.HasConstraint c)
    (hu : m.isCovered c = false) (plain : Row → Progress σ → Progress σ × Ending)
    (hback : ∀ h ∈ m.column c, HandsBack (chosen m h) inner)
    (hi : ∀ h ∈ m.column c,
      Simulates (chosen m h) inner (plain (m.asRow (m.candidateOf h)))) :
    Simulates m
      (underCover level c fun d => tryRows (.ofCallback f) level inner (d.matrix.column c) d)
      fun r => Problem.tryEach
        (fun row r =>
          let others := row.constraints.filter (· ≠ c)
          let stats := r.stats.recordUpdates level ((m.problem.without [c]).coverCosts others)
          plain row { r with stats })
        (m.problem.rowsOf c)
        { r with stats := r.stats.recordUpdates level (m.problem.coverCost c) } := by
  rintro d rfl
  have hfacts : ∀ h ∈ d.matrix.column c, _ := fun h hh => othersOpen_column hm hc hu hh
  have hrun := tryRows_simulates (f := f) level (hm.cover hc hu)
    (fun h => plain (d.matrix.asRow (d.matrix.candidateOf h)))
    (fun h hh => (hfacts h hh).2.2)
    (fun h hh => by
      rw [chosen_eq (hfacts h hh).2.1]
      exact hback h hh)
    (fun h hh => by
      rw [chosen_eq (hfacts h hh).2.1]
      exact hi h hh)
    (covering level c d) rfl
  have hcosts : ∀ h ∈ d.matrix.column c, ((d.matrix.cover c).matrix.coverRow h).updates =
      (d.matrix.problem.without [c]).coverCosts
        ((d.matrix.asRow (d.matrix.candidateOf h)).constraints.filter (· ≠ c)) := by
    intro h hh
    obtain ⟨ha, rfl, -⟩ := hfacts h hh
    exact hm.updates_coverRow ha
  dsimp only
  rw [hm.rowsOf_problem hc hu, Problem.tryEach_map, ← hm.updates_cover hc hu]
  refine Eq.trans ?_ (hrun.trans (Problem.tryEach_congr (fun h hh r => ?_) _))
  · rw [underCover_eq, ← hm.column_cover hc hu]
    rfl
  · rw [hcosts h hh]

end Simulated

theorem report_simulates (limits : SearchLimits) {f : σ → Matrix P → σ × Bool}
    {k : σ → List Cell → σ × Bool} {cells : List Cell} {m : Matrix P}
    (hk : ∀ s, f s m = k s cells) :
    Simulates m (report limits (.ofCallback f)) (Problem.report limits k cells) := by
  rintro d rfl
  unfold Problem.report
  rw [← hk]
  rfl

/-- A callback that is shown the matrix of every solution does what one does that is shown the
places of the chosen cells. -/
def Agrees (m₀ : Matrix P) (f : σ → Matrix P → σ × Bool) (k : σ → List Cell → σ × Bool) : Prop :=
  ∀ cells m, m₀.Along cells m → ∀ s, f s m = k s cells

/-- A descent has the outcome of the plain one from the problem that its matrix stands for. -/
theorem descend_simulates (limits : SearchLimits) {m₀ : Matrix P} {f : σ → Matrix P → σ × Bool}
    {k : σ → List Cell → σ × Bool} (hk : Agrees m₀ f k) :
    ∀ (remaining level : Nat) (cells : List Cell) (m : Matrix P), m.Coherent →
      m₀.Along cells m → level + remaining = limits.maxDepth →
      Simulates m (descend limits (.ofCallback f) remaining level)
        (Problem.descend limits k level m.problem cells) := by
  intro remaining
  induction remaining using Nat.strongRecOn with
  | ind remaining ih =>
    intro level cells m hm hpath hlevel ⟨m', stats, found, state⟩ hd
    obtain rfl : m' = m := hd
    unfold descend
    rw [Problem.descend, hm.shortest_problem]
    cases hchoose : chooseConstraint m' with
    | none => exact report_simulates limits (hk cells m' hpath) ⟨m', _, found, state⟩ rfl
    | some c =>
      obtain ⟨hc, -, hu⟩ := hm.mem_activeConstraints.mp (chooseConstraint_mem hchoose)
      have hdegree := hm.degree_problem hc hu
      dsimp only
      rw [hdegree]
      by_cases hzero : m'.len c = 0
      · rw [if_pos hzero, if_pos hzero]
        rfl
      rw [if_neg hzero, if_neg hzero]
      -- the levels that are left are those up to the ceiling
      cases remaining with
      | zero =>
        rw [if_pos (by omega)]
        rfl
      | succ remaining =>
        rw [if_neg (by omega)]
        dsimp only
        by_cases hwide : m'.len c > limits.maxBranching
        · rw [if_pos hwide, if_pos hwide]
          rfl
        rw [if_neg hwide, if_neg hwide]
        have hbelow : ∀ h ∈ m'.column c, (chosen m' h).Coherent := fun h hh =>
          coherent_chosen hm (othersOpen_column hm hc hu hh).1
        refine underRows_simulates level hm hc hu
          (fun row => Problem.descend limits k (level + 1)
            (m'.problem.without row.constraints) (cells ++ [⟨c, row.candidate⟩])) ?_ ?_
          ⟨m', (stats.recordNode level).recordBranch level (m'.len c), found, state⟩ rfl
        · exact fun h hh => descend_matrix limits _ remaining _ _ (hbelow h hh)
        · intro h hh
          obtain ⟨ha, rfl, -⟩ := othersOpen_column hm hc hu hh
          have hone := ih remaining (Nat.lt_succ_self _) (level + 1) _ _ (hbelow h hh)
            (hpath.choose hm ha) (by omega)
          rw [hm.problem_chosen ha] at hone
          exact hone

/-- A search has the outcome of the plain one from the problem that its matrix stands for. -/
theorem search_simulates (limits : SearchLimits) {m : Matrix P} (hm : m.Coherent)
    {f : σ → Matrix P → σ × Bool} {k : σ → List Cell → σ × Bool} (hk : Agrees m f k)
    (stats : Statistics) (state : σ) :
    Descent.outcome (search limits (.ofCallback f) m stats state) =
      m.problem.search limits k stats state := by
  unfold search Problem.search
  show Descent.outcome (if m.constraintCount = 0 then _ else _) =
    if m.constraintCount = 0 then _ else _
  split
  · rfl
  · exact descend_simulates limits hk limits.maxDepth 0 [] m hm .start (Nat.zero_add _) _ rfl

end Search

section Refined

variable {P : Type}

/-- Whatever its limits are and whatever its statistics are added to, a search comes to what the
search on plain lists comes to: it ends in the same way, with the same error if with any, it has
reported as many solutions, and it has counted the same. Its callback has been called on the
same solutions in the same order, so it is in the same state, whether it is shown the
candidates that have been placed or the matrix itself, which is the one where the cells that
the plain search reports have been chosen one after another. -/
theorem Reached.search_refines {es : List Entry} {m : Matrix P} (h : Reached es m) {σ : Type}
    (limits : SearchLimits) (stats : Statistics) (state : σ) :
    (∀ k : σ → List CandidateId → σ × Bool,
      Descent.outcome (Search.search limits
          (.ofCallback fun s (n : Matrix P) => k s n.solutionCandidates) m stats state) =
        m.problem.search limits
          (fun s cells => k s (m.solutionCandidates ++ cells.map Cell.candidate)) stats state) ∧
    ∀ f : σ → Matrix P → σ × Bool,
      Descent.outcome (Search.search limits (.ofCallback f) m stats state) =
        m.problem.search limits (fun s cells => f s (m.follow cells)) stats state := by
  have hm := h.coherent
  constructor
  · intro k
    refine Search.search_simulates limits hm ?_ stats state
    intro cells n hpath s
    dsimp only
    rw [hpath.solutionCandidates_eq]
  · intro f
    refine Search.search_simulates limits hm ?_ stats state
    intro cells n hpath s
    dsimp only
    rw [hpath.follow_eq]

/-- What the plain search finds in a small problem, read off a search of the matrix. -/
theorem Reached.search_refines_sample :
    Matrix.sample.problem = ⟨3, [1, 2], [⟨1, [1, 3]⟩, ⟨2, [2, 3]⟩, ⟨3, [2]⟩]⟩ ∧
      ∃ r, Matrix.sample.problem.search {}
          (fun found cells => (found.push (cells.map Cell.candidate), true)) {} #[] =
            (r, .exhausted) ∧
        r.state = #[[1, 3]] ∧ r.found = 1 ∧ r.stats.nodes = 3 ∧ r.stats.levelUpdates = #[4, 1] := by
  refine ⟨by decide, ?_⟩
  have hrefines := (Reached.search_refines (.built Matrix.built_sample) {} {} #[]).1
    fun (found : Array (List CandidateId)) candidates => (found.push candidates, true)
  have hnone : Matrix.sample.solutionCandidates = [] := by decide
  have hrun : Descent.outcome (Search.search {} Search.collector Matrix.sample {} #[]) = _ :=
    hrefines
  have hending : (Search.search {} Search.collector Matrix.sample {} #[]).2 = .exhausted := by
    decide +kernel
  have hfound : (Search.search {} Search.collector Matrix.sample {} #[]).1.state = #[[1, 3]] ∧
      (Search.search {} Search.collector Matrix.sample {} #[]).1.found = 1 := by decide +kernel
  have hstats : (Search.search {} Search.collector Matrix.sample {} #[]).1.stats.nodes = 3 ∧
      (Search.search {} Search.collector Matrix.sample {} #[]).1.stats.levelUpdates = #[4, 1] := by
    decide +kernel
  simp only [hnone, List.nil_append] at hrun
  exact ⟨(Descent.outcome (Search.search {} Search.collector Matrix.sample {} #[])).1,
    hrun.symm.trans (Prod.ext rfl hending), hfound.1, hfound.2, hstats.1, hstats.2⟩

end Refined

end ExactCover
