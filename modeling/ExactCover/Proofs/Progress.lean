/-
ExactCover.Proofs.Progress — every deduction is a step forward, so solving ends.

Written out as covers and eliminations, the actions of a deduction are moves, and
every one of them is allowed when its turn comes: no constraint is covered twice and
no candidate is eliminated twice. There is at least one action, so a deduction leaves
fewer candidates (`Strategy.find_progresses`).

`Solver.Loop` is the loop of the solver without any bound on its length. Since the
candidates become fewer each time round, the loop ends, and the bound that a run
carries is never what ends it (`Solver.loop_run`, by induction over the bound).
-/
import ExactCover.Proofs.SolverRuns

namespace ExactCover

/-! ## Actions as moves -/

section Moves

variable {P : Type} {m : Matrix P}

/-- Placing a candidate as single covers. -/
def Matrix.placeMoves (m : Matrix P) (h : CellId) : List Move :=
  (m.constraintOf h :: (m.rightOf h).map m.constraintOf).map .cover

/-- An action as single covers and eliminations. -/
def Action.moves (m : Matrix P) : Action → List Move
  | .solve h =>
    (m.constraintOf h :: (m.rightOf h).map m.constraintOf).map .cover ++ [.push h]
  | .eliminate h => [.eliminate h]

/-- A deduction as single covers and eliminations. -/
def Deduction.moves (m : Matrix P) (d : Deduction) : List Move := d.actions.flatMap (Action.moves m)

theorem Move.allAllowed_append {as bs : List Move} (ha : Move.AllAllowed m as)
    (hb : Move.AllAllowed (plays Move.run m as).1 bs) : Move.AllAllowed m (as ++ bs) := by
  induction as generalizing m with
  | nil => exact hb
  | cons a as ih => exact ⟨ha.1, ih ha.2 hb⟩

/-- Covering several constraints is covering one after another. -/
theorem plays_covers (m : Matrix P) (cs : List ConstraintId) :
    (plays Move.run m (cs.map .cover)).1 = (Matrix.sequence Matrix.cover m cs).matrix := by
  induction cs generalizing m with
  | nil => rfl
  | cons c cs ih => exact ih (m.cover c).matrix

theorem Matrix.Coherent.allAllowed_covers (hm : m.Coherent) {cs : List ConstraintId}
    (hcs : Matrix.Coherent.OpenList m cs) : Move.AllAllowed m (cs.map .cover) := by
  induction cs generalizing m with
  | nil => trivial
  | cons c cs ih =>
    have hc := hcs.2 c List.mem_cons_self
    exact ⟨hc, ih (hm.cover hc.1 hc.2) (hm.openList_cover hcs)⟩

theorem Matrix.plays_place (m : Matrix P) (h : CellId) :
    (plays Move.run m (m.placeMoves h)).1 = (m.place h).matrix := by
  have hb := (Matrix.relinked_cover m (m.constraintOf h)).board
  rw [Matrix.placeMoves, plays_covers]
  unfold Matrix.place Matrix.coverRow
  simp only [Matrix.sequence, Matrix.rightOf_of_board hb, Matrix.constraintOf_of_board hb]

/-- The constraints of an active candidate are open and different from each other. -/
theorem Matrix.Coherent.allAllowed_place (hm : m.Coherent) {h : CellId}
    (ha : m.isCandidateActive (m.candidateOf h) = true) : Move.AllAllowed m (m.placeMoves h) := by
  refine hm.allAllowed_covers ?_
  have hrow : ∀ x ∈ h :: m.rightOf h, x ∈ m.row (m.candidateOf h) := fun x =>
    (hm.laid.mem_cons_rightOf (hm.mem_row ha)).mp
  rw [← List.map_cons]
  refine ⟨(hm.laid.nodup_cons_rightOf (hm.mem_row ha)).map_on ?_, fun c hc => ?_⟩
  · intro x hx y hy
    exact hm.laid.eq_of_constraintOf (hrow x hx) (hrow y hy)
  · obtain ⟨x, hx, rfl⟩ := List.mem_map.mp hc
    exact ⟨hm.laid.hasConstraint_row (hrow x hx), hm.settled _ _ ha ⟨x, hrow x hx, rfl⟩⟩

/-- An action does what its moves do. -/
theorem Action.apply_moves (m : Matrix P) (a : Action) :
    (a.apply m).1 = (plays Move.run m (a.moves m)).1 := by
  cases a with
  | eliminate h => rfl
  | solve h =>
    show (m.place h).matrix.pushSolution h =
      (plays Move.run m (m.placeMoves h ++ [.push h])).1
    rw [plays_append, m.plays_place]
    rfl

/-- When an action is about an active candidate, all of its moves are allowed. -/
theorem Action.allAllowed_moves (hm : m.Coherent) {a : Action} (ha : a.Allowed m) :
    Move.AllAllowed m (a.moves m) := by
  cases a with
  | eliminate h => exact ⟨ha, trivial⟩
  | solve h => exact Move.allAllowed_append (hm.allAllowed_place ha) ⟨trivial, trivial⟩

theorem Action.moves_of_board {n : Matrix P} (hb : n.board = m.board) :
    Action.moves n = Action.moves m := by
  funext a
  cases a with
  | eliminate h => rfl
  | solve h => rw [moves, moves, Matrix.rightOf_of_board hb, Matrix.constraintOf_of_board hb]

/-- Actions do what their moves do, and where the actions are allowed the moves are. -/
theorem Action.moves_applyAll {as : List Action} (hm : m.Coherent)
    (ha : Action.AllAllowed m as) :
    (runChanges Action.apply m as).1 = (plays Move.run m (as.flatMap (Action.moves m))).1 ∧
      Move.AllAllowed m (as.flatMap (Action.moves m)) := by
  induction as generalizing m with
  | nil => exact ⟨rfl, trivial⟩
  | cons a as ih =>
    have hfirst : Action.AllAllowed m [a] := ⟨ha.1, trivial⟩
    have hboard : (a.apply m).1.board = m.board := (Action.removes_applyAll hm hfirst).board
    obtain ⟨hplays, hallowed⟩ := ih (Action.coherent_apply hm ha.1) ha.2
    rw [Action.moves_of_board hboard, Action.apply_moves] at hplays hallowed
    rw [List.flatMap_cons, plays_append]
    refine ⟨?_, Move.allAllowed_append (Action.allAllowed_moves hm ha.1) hallowed⟩
    rw [← hplays, ← Action.apply_moves]
    rfl

end Moves

/-! ## Every deduction is a step forward -/

section Progress

variable {P : Type} {m : Matrix P} {d : Deduction}

/-- A deduction has something to do, can be performed without covering or eliminating anything a
second time, and leaves fewer candidates. -/
structure Deduction.Progresses (m : Matrix P) (d : Deduction) : Prop where
  actions_ne_nil : d.actions ≠ []
  performable : m.Performable d.actions
  apply_moves : (d.apply m).1 = (plays Move.run m (d.moves m)).1
  allowed : Move.AllAllowed m (d.moves m)
  fewer : (d.apply m).1.activeCandidateCount < m.activeCandidateCount

theorem Matrix.Performable.progresses (hm : m.Coherent) (h : m.Performable d.actions)
    (hne : d.actions ≠ []) : d.Progresses m := by
  have hallowed := h.allAllowed hm
  obtain ⟨hplays, hmoves⟩ := Action.moves_applyAll hm hallowed
  have hcount : (d.apply m).1.activeCandidateCount + d.actions.length ≤ m.activeCandidateCount :=
    hm.activeCandidateCount_applyAll hallowed
  have hpos := List.length_pos_iff.mpr hne
  exact ⟨hne, h, hplays, hmoves, by omega⟩

theorem Matrix.Justified.actions_ne_nil {as : List Action} (h : m.Justified as) : as ≠ [] := by
  cases h with
  | solve => exact List.cons_ne_nil _ _
  | eliminate hne => simpa using hne

theorem Matrix.distinct_pair_ne_nil (m : Matrix P) (x y : CellId) : m.distinct [x, y] ≠ [] := by
  by_cases h : m.candidateOf x = m.candidateOf y <;> simp [distinct, h]

namespace Strategy

/-- The extra cells of a rectangle are two, or one if they are of the same candidate. -/
theorem findRectangle_ne_nil {cellsOnly : Bool} (h : findRectangle m cellsOnly = some d) :
    d.actions ≠ [] := by
  obtain ⟨u, v, w, fourth, k, x, y, extra, -, -, -, rfl⟩ := findRectangle_some h
  simpa [rectangle] using m.distinct_pair_ne_nil x y

/-- Whatever a strategy sees has something to do. -/
theorem find_ne_nil (hm : m.Coherent) (hf : m.Fits) {s : Strategy} (h : s.find m = some d) :
    d.actions ≠ [] := by
  cases s with
  | uniqueRectangle => exact findRectangle_ne_nil h
  | hiddenUniqueRectangle => exact findRectangle_ne_nil h
  | singles => exact (find_justified hm hf rfl h).actions_ne_nil
  | lockedSets => exact (find_justified hm hf rfl h).actions_ne_nil
  | nakedPairs => exact (find_justified hm hf rfl h).actions_ne_nil
  | yWing => exact (find_justified hm hf rfl h).actions_ne_nil
  | nakedTriples => exact (find_justified hm hf rfl h).actions_ne_nil
  | xyWing => exact (find_justified hm hf rfl h).actions_ne_nil

theorem find_progresses (hm : m.Coherent) (hf : m.Fits) {s : Strategy} (h : s.find m = some d) :
    d.Progresses m :=
  (find_performable hm h).progresses hm (find_ne_nil hm hf h)

end Strategy

end Progress

/-! ## The loop -/

namespace Matrix

variable {P : Type}

/-- Some active constraint has no candidate left. -/
def HasEmpty (m : Matrix P) : Prop := ∃ c ∈ m.activeConstraints, m.column c = []

theorem Coherent.isBlocked_iff {m : Matrix P} (hm : m.Coherent) :
    m.isBlocked = true ↔ m.HasEmpty := by
  have hlen : ∀ c ∈ m.activeConstraints, (m.len c == 0) = true ↔ m.column c = [] := fun c hc => by
    rw [beq_iff_eq, hm.len_eq (hm.mem_activeConstraints.mp hc).1, List.length_eq_zero_iff]
  simp only [isBlocked, List.any_eq_true, HasEmpty]
  exact exists_congr fun c => and_congr_right (hlen c)

theorem Coherent.isSolved_iff {m : Matrix P} (hm : m.Coherent) :
    m.isSolved = true ↔ m.activeConstraints = [] := by
  rw [isSolved, beq_iff_eq, hm.activeConstraintCount_eq, List.length_eq_zero_iff]

end Matrix

namespace Solver

variable {P : Type} {strategies : List Strategy}

/-- How the loop may end in a matrix: an empty constraint goes first, then that there is none to
satisfy, then that no strategy sees anything. -/
def EndsAs (strategies : List Strategy) (m : Matrix P) : Outcome → Prop
  | .blocked => m.HasEmpty
  | .solved => ¬ m.HasEmpty ∧ m.activeConstraints = []
  | .stuck => ¬ m.HasEmpty ∧ m.activeConstraints ≠ [] ∧ ∀ s ∈ strategies, s.find m = none

/-- The loop of the solver, from a matrix over some deductions to the last matrix: it ends where it
may, or the first strategy that sees something has its deduction applied. -/
inductive Loop (strategies : List Strategy) :
    Matrix P → List Deduction → Matrix P → Outcome → Prop
  | halt {m : Matrix P} {outcome : Outcome} :
      EndsAs strategies m outcome → Loop strategies m [] m outcome
  | apply {m n : Matrix P} {d : Deduction} {ds : List Deduction} {outcome : Outcome}
      {before after : List Strategy} {s : Strategy} :
      ¬ m.HasEmpty → m.activeConstraints ≠ [] →
      strategies = before ++ s :: after → (∀ t ∈ before, t.find m = none) →
      s.find m = some d → Loop strategies (d.apply m).1 ds n outcome →
      Loop strategies m (d :: ds) n outcome

theorem Loop.endsAs {m n : Matrix P} {ds : List Deduction} {outcome : Outcome}
    (h : Loop strategies m ds n outcome) : EndsAs strategies n outcome := by
  induction h with
  | halt hends => exact hends
  | apply _ _ _ _ _ _ ih => exact ih

/-- In every matrix the loop may end, or some strategy sees something. -/
theorem endsAs_or_step (strategies : List Strategy) (m : Matrix P) :
    (∃ outcome, EndsAs strategies m outcome) ∨
      ¬ m.HasEmpty ∧ m.activeConstraints ≠ [] ∧ ∃ d, step strategies m = some d := by
  by_cases hempty : m.HasEmpty
  · exact Or.inl ⟨.blocked, hempty⟩
  · by_cases hnone : m.activeConstraints = []
    · exact Or.inl ⟨.solved, hempty, hnone⟩
    · cases hstep : step strategies m with
      | none => exact Or.inl ⟨.stuck, hempty, hnone, List.findSome?_eq_none_iff.mp hstep⟩
      | some d => exact Or.inr ⟨hempty, hnone, d, rfl⟩

section Run

variable {m : Matrix P}

/-- Where the loop may end, a run ends, whatever it is allowed. -/
theorem run_halt (hm : m.Coherent) {outcome : Outcome} (h : EndsAs strategies m outcome)
    (n : Nat) : run strategies n m = halt m outcome := by
  unfold run
  cases outcome with
  | blocked => rw [if_pos (hm.isBlocked_iff.mpr h)]
  | solved =>
    obtain ⟨hempty, hnone⟩ := h
    rw [if_neg (hm.isBlocked_iff.not.mpr hempty), if_pos (hm.isSolved_iff.mpr hnone)]
  | stuck =>
    obtain ⟨hempty, hsome, hsee⟩ := h
    have hstep : step strategies m = none := List.findSome?_eq_none_iff.mpr hsee
    rw [if_neg (hm.isBlocked_iff.not.mpr hempty), if_neg (hm.isSolved_iff.not.mpr hsome), hstep]

/-- Where something is to be done, a run that is allowed a deduction does it and goes on. -/
theorem run_apply (hm : m.Coherent) (hempty : ¬ m.HasEmpty) (hsome : m.activeConstraints ≠ [])
    {d : Deduction} (hd : step strategies m = some d) (n : Nat) :
    run strategies (n + 1) m =
      ((run strategies n (d.apply m).1).1,
        { (run strategies n (d.apply m).1).2 with
          deductions := d :: (run strategies n (d.apply m).1).2.deductions
          changes := (d.apply m).2 ++ (run strategies n (d.apply m).1).2.changes }) := by
  conv_lhs => unfold run
  rw [if_neg (hm.isBlocked_iff.not.mpr hempty), if_neg (hm.isSolved_iff.not.mpr hsome), hd]

/-- A run that may have as many deductions as there are candidates goes round the loop to its end,
with no more deductions than that. -/
theorem loop_run (hm : m.Coherent) (hf : m.Fits) {n : Nat} (hn : m.activeCandidateCount ≤ n) :
    Loop strategies m (run strategies n m).2.deductions (run strategies n m).1
        (run strategies n m).2.outcome ∧
      (run strategies n m).2.deductions.length ≤ m.activeCandidateCount := by
  induction n generalizing m with
  | zero =>
    rcases endsAs_or_step strategies m with ⟨outcome, hends⟩ | ⟨hempty, hsome, -⟩
    · rw [run_halt hm hends]
      exact ⟨.halt hends, Nat.zero_le _⟩
    · have hpos := hm.activeCandidateCount_pos (hm.isBlocked_iff.not.mpr hempty)
        (hm.isSolved_iff.not.mpr hsome)
      omega
  | succ n ih =>
    rcases endsAs_or_step strategies m with ⟨outcome, hends⟩ | ⟨hempty, hsome, d, hd⟩
    · rw [run_halt hm hends]
      exact ⟨.halt hends, Nat.zero_le _⟩
    · obtain ⟨before, s, after, hlist, hfind, hbefore⟩ := List.findSome?_eq_some_iff.mp hd
      have hprogress := Strategy.find_progresses hm hf hfind
      have hallowed := hprogress.performable.allAllowed hm
      have hboard : (d.apply m).1.board = m.board := (Action.removes_applyAll hm hallowed).board
      have hfewer := hprogress.fewer
      obtain ⟨hloop, hlength⟩ :=
        ih (Deduction.coherent_apply hm hallowed) (hf.of_board hboard) (by omega)
      rw [run_apply hm hempty hsome hd]
      refine ⟨.apply hempty hsome hlist hbefore hfind hloop, ?_⟩
      show (run strategies n (d.apply m).1).2.deductions.length + 1 ≤ _
      omega

end Run

end Solver

/-- Every deduction is a step forward, so solving ends. In a state that is reached, with fewer
constraints and candidates than there are numbers of 32 bits, whatever a strategy sees has
something to do: it places a candidate of an active constraint, or it eliminates different active
candidates; it covers and eliminates nothing a second time, and leaves fewer candidates. So for
every list of strategies, on a matrix with constraints, the loop of the solver ends after no more
deductions than there are candidates: as blocked if some active constraint has no candidate,
otherwise as solved if no constraint is active, and otherwise as stuck, when no strategy of the list
sees anything. -/
theorem Reached.solve_ends {P : Type} {es : List Entry} {m : Matrix P} (h : Reached es m)
    (hf : m.Fits) :
    (∀ (s : Strategy) (d : Deduction), s.find m = some d → d.Progresses m) ∧
      ∀ strategies : List Strategy,
        (m.constraintCount = 0 ∧ Solver.solve strategies m = .error .noConstraints) ∨
        m.constraintCount ≠ 0 ∧ ∃ n report, Solver.solve strategies m = .ok (n, report) ∧
          Solver.Loop strategies m report.deductions n report.outcome ∧
          report.deductions.length ≤ m.activeCandidateCount ∧
          Solver.EndsAs strategies n report.outcome := by
  have hm := h.coherent
  refine ⟨fun s d hd => Strategy.find_progresses hm hf hd, fun strategies => ?_⟩
  unfold Solver.solve
  by_cases hzero : m.constraintCount = 0
  · exact Or.inl ⟨hzero, if_pos hzero⟩
  · obtain ⟨hloop, hlength⟩ := @Solver.loop_run P strategies m hm hf _ (Nat.le_refl _)
    exact Or.inr ⟨hzero, _, _, if_neg hzero, hloop, hlength, hloop.endsAs⟩

theorem Reached.solve_ends_sample :
    (∃ d, Strategy.find (Matrix.sample.eliminateRow 6).matrix .singles = some d ∧
      d.actions = [.solve 4] ∧ d.Progresses (Matrix.sample.eliminateRow 6).matrix) ∧
    ∃ n report, Solver.solve [.nakedPairs, .singles, .singles]
        (Matrix.sample.eliminateRow 6).matrix = .ok (n, report) ∧
      report.deductions.length ≤ 2 ∧
      Solver.EndsAs [.nakedPairs, .singles, .singles] n report.outcome := by
  have hreached : Reached [.move (.eliminate 6)] (Matrix.sample.eliminateRow 6).matrix :=
    .move (a := .eliminate 6) (.built Matrix.built_sample)
      (by decide : Matrix.sample.isCandidateActive 2 = true)
  obtain ⟨hfind, hsolve⟩ := Reached.solve_ends hreached ⟨by decide, by decide⟩
  refine ⟨⟨_, rfl, rfl, hfind .singles _ rfl⟩, ?_⟩
  rcases hsolve [.nakedPairs, .singles, .singles] with
    ⟨hzero, -⟩ | ⟨-, n, report, hok, -, hlength, hends⟩
  · exact absurd hzero (by decide)
  · exact ⟨n, report, hok, hlength, hends⟩

end ExactCover
