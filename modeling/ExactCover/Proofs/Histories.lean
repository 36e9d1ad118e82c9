/-
ExactCover.Proofs.Histories — the states a matrix can get into.

A `Move` is one of the operations on links that has an inverse. `Reached es m`
says that `m` comes from a matrix that was built by moves, hints, eliminations by
name and deductions, of which those of `es` are still open, the last one first:
what was taken back meanwhile had been the last open entry then.

Taking back gives the very state from before (`Move.back_run`,
`Deduction.undo_apply`), so whatever is reached is also reached by its open
entries alone: that is `Reached.trail`, and it leaves nothing to prove about
states after an inverse.
-/
import ExactCover.Deduction
import ExactCover.Proofs.Building

namespace ExactCover

/-- An operation on the links of a matrix. -/
inductive Move where
  | cover (c : ConstraintId)
  | coverRow (h : CellId)
  | eliminate (h : CellId)
  | push (h : CellId)
  deriving DecidableEq, Repr

namespace Matrix

variable {P : Type}

/-- Whether a matrix satisfies the invariant is a matter of its board and its links. -/
theorem Coherent.of_links {m n : Matrix P} (h : m.Coherent) (hb : n.board = m.board)
    (hl : n.links = m.links) : n.Coherent := by
  cases m; cases n; cases hb; cases hl
  exact ⟨⟨h.laid.of_board rfl, h.constraints.congr rfl rfl rfl rfl,
    h.candidates.congr rfl rfl rfl rfl, h.columns.congr rfl rfl rfl, h.open_column⟩, h.settled⟩

end Matrix

namespace Move

variable {P : Type} {m : Matrix P} {a : Move}

/-- Performs a move. -/
def run (m : Matrix P) : Move → Effect P
  | cover c => m.cover c
  | coverRow h => m.coverRow h
  | eliminate h => m.eliminateRow h
  | push h => ⟨m.pushSolution h, [], 0⟩

/-- Takes a move back. -/
def back (m : Matrix P) : Move → Effect P
  | cover c => m.uncover c
  | coverRow h => m.uncoverRow h
  | eliminate h => m.restoreRow h
  | push _ => ⟨m.popSolution, [], 0⟩

/-- What the caller of a move has to see to: a constraint is covered while it is open, and the
others of a row likewise, and a candidate is eliminated while it is active. -/
def Allowed (m : Matrix P) : Move → Prop
  | cover c => m.HasConstraint c ∧ m.isCovered c = false
  | coverRow h => m.candidateOf h ≠ 0 ∧ ∀ x ∈ m.rightOf h, m.isCovered (m.constraintOf x) = false
  | eliminate h => m.isCandidateActive (m.candidateOf h) = true
  | push _ => True

theorem coherent_run (hm : m.Coherent) (ha : a.Allowed m) : (a.run m).matrix.Coherent := by
  cases a with
  | cover c => exact hm.cover ha.1 ha.2
  | coverRow h => exact hm.coverRow ha
  | eliminate h => exact hm.eliminateRow ha
  | push h => exact hm.of_links rfl rfl

/-- A move that is taken back at once leaves no trace, and counts the same updates twice. -/
theorem back_run (hm : m.Coherent) (ha : a.Allowed m) :
    (a.back (a.run m).matrix).matrix = m ∧
      (a.back (a.run m).matrix).updates = (a.run m).updates := by
  cases a with
  | cover c =>
    have hundo := hm.uncover_cover ha.1 ha.2
    simp only [run, back, hundo, and_self]
  | coverRow h =>
    have hundo := hm.uncoverRow_coverRow ha
    simp only [run, back, hundo, and_self]
  | eliminate h =>
    have hundo := hm.restoreRow_eliminateRow ha
    simp only [run, back, hundo, and_self]
  | push h => exact ⟨Matrix.popSolution_pushSolution m h, rfl⟩

end Move

/-! ## Actions and deductions -/

section Deductions

variable {P : Type} {m : Matrix P}

/-- An action is about a candidate that is active when it is performed. -/
def Action.Allowed (m : Matrix P) (a : Action) : Prop :=
  m.isCandidateActive (m.candidateOf a.cell) = true

/-- Every action of a list is about a candidate that is active when its turn comes. -/
def Action.AllAllowed (m : Matrix P) : List Action → Prop
  | [] => True
  | a :: as => a.Allowed m ∧ Action.AllAllowed (a.apply m).1 as

/-- A deduction can be applied to a matrix. -/
def Deduction.Applicable (m : Matrix P) (d : Deduction) : Prop := Action.AllAllowed m d.actions

theorem Action.coherent_apply {a : Action} (hm : m.Coherent) (ha : a.Allowed m) :
    (a.apply m).1.Coherent := by
  cases a with
  | solve h => exact (hm.place ha).of_links rfl rfl
  | eliminate h => exact hm.eliminateRow ha

/-- Taking an action back gives the same matrix and reports the same changes the other way
round. -/
theorem Action.undo_apply {a : Action} (hm : m.Coherent) (ha : a.Allowed m) :
    a.undo (a.apply m).1 = (m, (a.apply m).2.reverse.map Change.undone) := by
  cases a with
  | solve h =>
    have ha : m.isCandidateActive (m.candidateOf h) = true := ha
    have hb : ((m.place h).matrix.pushSolution h).board = m.board :=
      (Matrix.relinked_place m h).board
    have hundo := hm.unplace_place ha
    show Action.undo ((m.place h).matrix.pushSolution h) (.solve h) = _
    simp [Action.undo, Action.apply, Matrix.candidateOf_of_board hb, hundo, Change.undone,
      Function.comp_def]
  | eliminate h =>
    have ha : m.isCandidateActive (m.candidateOf h) = true := ha
    have hb : (m.eliminateRow h).matrix.board = m.board := (Matrix.relinked_eliminateRow m h).board
    have hundo := hm.restoreRow_eliminateRow ha
    show (((m.eliminateRow h).matrix.restoreRow h).matrix,
      [Change.added ((m.eliminateRow h).matrix.candidateOf h)]) = _
    rw [hundo, Matrix.candidateOf_of_board hb]
    rfl

theorem runChanges_append {α : Type} (f : Matrix P → α → Matrix P × List Change) (m : Matrix P)
    (as bs : List α) :
    runChanges f m (as ++ bs) =
      ((runChanges f (runChanges f m as).1 bs).1,
        (runChanges f m as).2 ++ (runChanges f (runChanges f m as).1 bs).2) := by
  induction as generalizing m with
  | nil => rfl
  | cons a as ih => simp only [List.cons_append, runChanges, ih, List.append_assoc]

theorem Action.coherent_applyAll {as : List Action} (hm : m.Coherent)
    (ha : Action.AllAllowed m as) : (runChanges Action.apply m as).1.Coherent := by
  induction as generalizing m with
  | nil => exact hm
  | cons a as ih => exact ih (Action.coherent_apply hm ha.1) ha.2

/-- Taking actions back in the opposite order is taking all of them back. -/
theorem Action.undoAll_applyAll {as : List Action} (hm : m.Coherent)
    (ha : Action.AllAllowed m as) :
    runChanges Action.undo (runChanges Action.apply m as).1 as.reverse =
      (m, (runChanges Action.apply m as).2.reverse.map Change.undone) := by
  induction as generalizing m with
  | nil => rfl
  | cons a as ih =>
    have hone := Action.undo_apply hm ha.1
    have hrest := ih (Action.coherent_apply hm ha.1) ha.2
    simp only [runChanges, List.reverse_cons, runChanges_append, hrest, hone, List.append_nil,
      List.reverse_append, List.map_append]

theorem Deduction.coherent_apply {d : Deduction} (hm : m.Coherent) (hd : d.Applicable m) :
    (d.apply m).1.Coherent := Action.coherent_applyAll hm hd

/-- Undoing a deduction right after applying it gives the same matrix and reports the same changes
the other way round. -/
theorem Deduction.undo_apply {d : Deduction} (hm : m.Coherent) (hd : d.Applicable m) :
    d.undo (d.apply m).1 = (m, (d.apply m).2.reverse.map Change.undone) :=
  Action.undoAll_applyAll hm hd

end Deductions

/-! ## Hints and eliminations by name -/

namespace Matrix

variable {P : Type} {m n : Matrix P} {name : String} {changes : List Change}

theorem activeByName_ok {r : CandidateId} (h : m.activeByName name = .ok r) :
    m.isCandidateActive r = true := by
  unfold activeByName at h
  split at h
  · cases h
  · split at h
    · next ha => cases h; exact ha
    · cases h

/-- A hint places a candidate that was active. -/
theorem addHint_ok (hm : m.Coherent) (h : m.addHint name = .ok (n, changes)) :
    ∃ r, m.isCandidateActive (m.candidateOf (m.firstCell r)) = true ∧
      n = { (m.place (m.firstCell r)).matrix with
        hints := (m.place (m.firstCell r)).matrix.hints.push (m.firstCell r) } := by
  unfold addHint at h
  split at h
  · cases h
  · next r hr =>
    have ha := activeByName_ok hr
    cases h
    refine ⟨r, ?_, rfl⟩
    rw [hm.candidateOf_firstCell ha]
    exact ha

/-- An elimination by name changes nothing, or it takes out a candidate that was active. -/
theorem eliminateCandidate_ok (hm : m.Coherent)
    (h : m.eliminateCandidate name = .ok (n, changes)) :
    (n = m ∧ changes = []) ∨
      ∃ r, m.isCandidateActive (m.candidateOf (m.firstCell r)) = true ∧
        m.candidateOf (m.firstCell r) = r ∧
        n = (m.eliminateRow (m.firstCell r)).matrix ∧ changes = [.removed r] := by
  unfold eliminateCandidate at h
  split at h
  · cases h
    exact Or.inl ⟨rfl, rfl⟩
  · cases h
  · next r hr =>
    have ha := activeByName_ok hr
    have hcell := hm.candidateOf_firstCell ha
    cases h
    refine Or.inr ⟨r, ?_, hcell, rfl, rfl⟩
    rw [hcell]
    exact ha

end Matrix

/-! ## Histories -/

/-- What has been done to a matrix and is not taken back. -/
inductive Entry where
  | hint (h : CellId)
  | move (a : Move)
  | deduction (d : Deduction)
  deriving DecidableEq, Repr

namespace Entry

/-- What an elimination by name leaves behind: nothing if the candidate was gone already. -/
def eliminations {P : Type} (m : Matrix P) (changes : List Change) : List Entry :=
  changes.map fun k => .move (.eliminate (m.firstCell k.candidate))

end Entry

section Histories

variable {P : Type}

/-- The states of a matrix, each with what is still open in it, the last first. What is taken back
is the last. -/
inductive Reached : List Entry → Matrix P → Prop
  | built {m : Matrix P} : m.Built → Reached [] m
  | hint {es : List Entry} {m n : Matrix P} {name : String} {changes : List Change} {h : CellId} :
      Reached es m → m.addHint name = .ok (n, changes) → n.hints.back? = some h →
      Reached (.hint h :: es) n
  | eliminateCandidate {es : List Entry} {m n : Matrix P} {name : String}
      {changes : List Change} :
      Reached es m → m.eliminateCandidate name = .ok (n, changes) →
      Reached (Entry.eliminations n changes ++ es) n
  | move {es : List Entry} {m : Matrix P} {a : Move} :
      Reached es m → a.Allowed m → Reached (.move a :: es) (a.run m).matrix
  | takeBack {es : List Entry} {m : Matrix P} {a : Move} :
      Reached (.move a :: es) m → Reached es (a.back m).matrix
  | apply {es : List Entry} {m : Matrix P} {d : Deduction} :
      Reached es m → d.Applicable m → Reached (.deduction d :: es) (d.apply m).1
  | undo {es : List Entry} {m : Matrix P} {d : Deduction} :
      Reached (.deduction d :: es) m → Reached es (d.undo m).1

/-- The same without anything taken back. -/
inductive Trail : List Entry → Matrix P → Prop
  | built {m : Matrix P} : m.Built → Trail [] m
  | hint {es : List Entry} {m : Matrix P} {h : CellId} :
      Trail es m → m.isCandidateActive (m.candidateOf h) = true →
      Trail (.hint h :: es) { (m.place h).matrix with
        hints := (m.place h).matrix.hints.push h }
  | move {es : List Entry} {m : Matrix P} {a : Move} :
      Trail es m → a.Allowed m → Trail (.move a :: es) (a.run m).matrix
  | apply {es : List Entry} {m : Matrix P} {d : Deduction} :
      Trail es m → d.Applicable m → Trail (.deduction d :: es) (d.apply m).1

theorem Trail.coherent {es : List Entry} {m : Matrix P} (h : Trail es m) : m.Coherent := by
  induction h with
  | built hb => exact hb.fresh.coherent
  | hint _ ha ih => exact (ih.place ha).of_links rfl rfl
  | move _ ha ih => exact Move.coherent_run ih ha
  | apply _ hd ih => exact Deduction.coherent_apply ih hd

/-- Taking back gives the state from before, so what is open is all of a history that matters. -/
theorem Reached.trail {es : List Entry} {m : Matrix P} (h : Reached es m) : Trail es m := by
  induction h with
  | built hb => exact .built hb
  | hint _ hok hback ih =>
    obtain ⟨r, ha, rfl⟩ := Matrix.addHint_ok ih.coherent hok
    simp only [Array.back?_push, Option.some.injEq] at hback
    subst hback
    exact .hint ih ha
  | @eliminateCandidate es m _ _ _ _ hok ih =>
    rcases Matrix.eliminateCandidate_ok ih.coherent hok with
      ⟨rfl, rfl⟩ | ⟨r, ha, hcell, rfl, rfl⟩
    · exact ih
    · have hb := (Matrix.relinked_eliminateRow m (m.firstCell r)).board
      have hfirst := Matrix.firstCell_of_board hb
      simp only [Entry.eliminations, List.map_cons, List.map_nil, List.cons_append,
        List.nil_append, Change.candidate, hfirst]
      exact Trail.move ih (a := .eliminate _) ha
  | move _ ha ih => exact .move ih ha
  | takeBack _ ih =>
    cases ih with
    | move hbefore ha =>
      rw [(Move.back_run hbefore.coherent ha).1]
      exact hbefore
  | apply _ hd ih => exact .apply ih hd
  | undo _ ih =>
    cases ih with
    | apply hbefore hd =>
      rw [Deduction.undo_apply hbefore.coherent hd]
      exact hbefore

/-- Every state that is reached satisfies the invariant. -/
theorem Reached.coherent {es : List Entry} {m : Matrix P} (h : Reached es m) : m.Coherent :=
  h.trail.coherent

/-! ## Before solving -/

/-- A matrix that was built, and then given hints and relieved of candidates by name. -/
inductive Prepared : Matrix P → Prop
  | built {m : Matrix P} : m.Built → Prepared m
  | hint {m n : Matrix P} {name : String} {changes : List Change} :
      Prepared m → m.addHint name = .ok (n, changes) → Prepared n
  | eliminateCandidate {m n : Matrix P} {name : String} {changes : List Change} :
      Prepared m → m.eliminateCandidate name = .ok (n, changes) → Prepared n

theorem Prepared.coherent {m : Matrix P} (h : Prepared m) : m.Coherent := by
  induction h with
  | built hb => exact hb.fresh.coherent
  | hint _ hok ih =>
    obtain ⟨r, ha, rfl⟩ := Matrix.addHint_ok ih hok
    exact (ih.place ha).of_links rfl rfl
  | eliminateCandidate _ hok ih =>
    rcases Matrix.eliminateCandidate_ok ih hok with ⟨rfl, -⟩ | ⟨r, ha, -, rfl, -⟩
    · exact ih
    · exact ih.eliminateRow ha

/-- Nothing has been chosen before solving. -/
theorem Prepared.solution_eq {m : Matrix P} (h : Prepared m) : m.solution = #[] := by
  induction h with
  | built hb => exact hb.nothing_placed.2
  | @hint m _ _ _ hm hok ih =>
    obtain ⟨r, -, rfl⟩ := Matrix.addHint_ok hm.coherent hok
    exact (Matrix.relinked_place m _).solution.trans ih
  | @eliminateCandidate m _ _ _ hm hok ih =>
    rcases Matrix.eliminateCandidate_ok hm.coherent hok with ⟨rfl, -⟩ | ⟨r, -, -, rfl, -⟩
    · exact ih
    · exact (Matrix.relinked_eliminateRow m _).solution.trans ih

/-! ## Runs of moves -/

/-- Every move of a list is allowed when its turn comes. -/
def Move.AllAllowed (m : Matrix P) : List Move → Prop
  | [] => True
  | a :: as => a.Allowed m ∧ Move.AllAllowed (a.run m).matrix as

/-- Goes through moves one after another, in one direction or the other, and lists how many updates
each of them counts. -/
def plays (f : Matrix P → Move → Effect P) (m : Matrix P) : List Move → Matrix P × List Nat
  | [] => (m, [])
  | a :: as =>
    match plays f (f m a).matrix as with
    | (n, counts) => (n, (f m a).updates :: counts)

theorem plays_append (f : Matrix P → Move → Effect P) (m : Matrix P) (as bs : List Move) :
    plays f m (as ++ bs) =
      ((plays f (plays f m as).1 bs).1, (plays f m as).2 ++ (plays f (plays f m as).1 bs).2) := by
  induction as generalizing m with
  | nil => rfl
  | cons a as ih => simp only [List.cons_append, plays, ih]

theorem Move.coherent_plays {m : Matrix P} {as : List Move} (hm : m.Coherent)
    (ha : Move.AllAllowed m as) : (plays Move.run m as).1.Coherent := by
  induction as generalizing m with
  | nil => exact hm
  | cons a as ih => exact ih (Move.coherent_run hm ha.1) ha.2

theorem Move.plays_back {m : Matrix P} {as : List Move} (hm : m.Coherent)
    (ha : Move.AllAllowed m as) :
    plays Move.back (plays Move.run m as).1 as.reverse = (m, (plays Move.run m as).2.reverse) := by
  induction as generalizing m with
  | nil => rfl
  | cons a as ih =>
    have hrest := ih (Move.coherent_run hm ha.1) ha.2
    obtain ⟨hmatrix, hupdates⟩ := Move.back_run hm ha.1
    simp only [plays, List.reverse_cons, plays_append, hrest, hmatrix, hupdates]

/-- Moves that are taken back in the opposite order give the very same matrix, with all its links
and counts, and every inverse counts the updates of its move. -/
theorem Reached.plays_back_reverse {es : List Entry} {m : Matrix P} {as : List Move}
    (h : Reached es m) (ha : Move.AllAllowed m as) :
    plays Move.back (plays Move.run m as).1 as.reverse = (m, (plays Move.run m as).2.reverse) :=
  Move.plays_back h.coherent ha

theorem Reached.plays_back_reverse_sample :
    plays Move.back
        (plays Move.run Matrix.sample [.cover 3, .push 5, .coverRow 5, .eliminate 8]).1
        [.eliminate 8, .coverRow 5, .push 5, .cover 3] =
      (Matrix.sample, (plays Move.run Matrix.sample
        [.cover 3, .push 5, .coverRow 5, .eliminate 8]).2.reverse) := by
  have hopen : ∀ x ∈ [4], ((Matrix.sample.cover 3).matrix.pushSolution 5).isCovered
      (Matrix.sample.constraintOf x) = false := by decide
  have hallowed : Move.AllAllowed Matrix.sample [.cover 3, .push 5, .coverRow 5, .eliminate 8] :=
    ⟨⟨⟨by decide, by decide⟩, by decide⟩, trivial, ⟨by decide, hopen⟩,
      (by decide : (((Matrix.sample.cover 3).matrix.pushSolution 5).coverRow
        5).matrix.isCandidateActive 3 = true), trivial⟩
  exact Reached.plays_back_reverse (.built Matrix.built_sample) hallowed

end Histories

end ExactCover
