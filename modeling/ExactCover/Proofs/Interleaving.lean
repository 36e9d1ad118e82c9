/-
ExactCover.Proofs.Interleaving — additions, hints and eliminations in any order.

`Composed` are the matrices that come from the empty one by additions, hints,
eliminations by name and solving, in whatever order. A parameter says which
candidates may be added when.

A candidate is added to whatever constraints it names, covered or not. As long as it
names open ones (`Openly`), the matrix stays `Workable`: one lemma for every kind of
step, and the induction over the steps puts them together (`Composed.workable`). From
that follows `CoversOnce`: whatever is done next covers no constraint a second time,
and no solution satisfies a constraint twice.

Without that condition nothing of it holds. In `sampleLate` a candidate that comes
after a hint is active beside the one it excludes (`sampleLate_covers_twice`).
-/
import ExactCover.Proofs.Givens
import ExactCover.Proofs.Progress

namespace ExactCover.Matrix

variable {P : Type}

/-! ## Room for additions

Taking out and putting back changes links and never their number. -/

namespace Sized

variable {m n : Matrix P}

theorem of_links (h : m.Sized) (hb : n.board = m.board) (hl : n.links = m.links) : n.Sized := by
  cases m; cases n; cases hb; cases hl
  exact ⟨h.constraints_before, h.constraints_after, h.candidates_before, h.candidates_after,
    h.columns_before, h.columns_after, h.lens⟩

theorem empty : (Matrix.empty : Matrix P).Sized := ⟨rfl, rfl, rfl, rfl, rfl, rfl, rfl⟩

theorem foldl {α : Type} {f : Matrix P → α → Matrix P} (hf : ∀ m a, m.Sized → (f m a).Sized)
    (xs : List α) (h : m.Sized) : (xs.foldl f m).Sized := by
  induction xs generalizing m with
  | nil => exact h
  | cons a xs ih => exact ih (hf m a h)

theorem size_before_unlink (r : Ring) (i : Nat) : (r.unlink i).before.size = r.before.size := by
  simp [Ring.unlink, Ring.join]

theorem unlinkConstraint (c : ConstraintId) (h : m.Sized) : (m.unlinkConstraint c).Sized where
  constraints_before := (size_before_unlink _ _).trans h.constraints_before
  constraints_after := (Ring.size_unlink _ _).trans h.constraints_after
  candidates_before := h.candidates_before
  candidates_after := h.candidates_after
  columns_before := h.columns_before
  columns_after := h.columns_after
  lens := h.lens

theorem unlinkCandidate (r : CandidateId) (h : m.Sized) : (m.unlinkCandidate r).Sized where
  constraints_before := h.constraints_before
  constraints_after := h.constraints_after
  candidates_before := (size_before_unlink _ _).trans h.candidates_before
  candidates_after := (Ring.size_unlink _ _).trans h.candidates_after
  columns_before := h.columns_before
  columns_after := h.columns_after
  lens := h.lens

theorem unlinkCell (m : Matrix P) (x : CellId) (h : m.Sized) : (m.unlinkCell x).Sized where
  constraints_before := h.constraints_before
  constraints_after := h.constraints_after
  candidates_before := h.candidates_before
  candidates_after := h.candidates_after
  columns_before := (size_before_unlink _ _).trans h.columns_before
  columns_after := (Ring.size_unlink _ _).trans h.columns_after
  lens := Array.size_modify.trans h.lens

theorem hideRow (m : Matrix P) (x : CellId) (h : m.Sized) : (m.hideRow x).Sized :=
  (h.foldl unlinkCell (m.rightOf x)).unlinkCandidate _

theorem cover (m : Matrix P) (c : ConstraintId) (h : m.Sized) : (m.cover c).matrix.Sized :=
  (h.unlinkConstraint c).foldl hideRow (m.column c)

theorem covers (cs : List ConstraintId) (h : m.Sized) :
    (sequence Matrix.cover m cs).matrix.Sized := by
  induction cs generalizing m with
  | nil => exact h
  | cons c cs ih => exact ih (cover m c h)

theorem place (x : CellId) (h : m.Sized) : (m.place x).matrix.Sized := (cover m _ h).covers _

theorem eliminateRow (x : CellId) (h : m.Sized) : (m.eliminateRow x).matrix.Sized :=
  (h.foldl unlinkCell (x :: m.rightOf x)).unlinkCandidate _

end Sized

/-! ## What has been placed, after an addition -/

section Additions

variable {m : Matrix P}

open Coherent (Shares)

theorem Accounted.constrained (h : m.Accounted) (hl : m.Laid) (name : String) (kind : Kind)
    (primary : Bool) : (m.constrained name kind primary).Accounted := by
  have hhits : (m.constrained name kind primary).Hits = m.Hits := by
    funext r c
    exact propext (hl.hits_constrained name kind primary r c)
  have hplaced : (m.constrained name kind primary).solutionCandidates = m.solutionCandidates := by
    simp only [solutionCandidates, candidateOf_constrained]
    rfl
  have hshares : Shares (m.constrained name kind primary) = Shares m := by
    funext q r
    simp only [Shares, hhits]
  refine ⟨?_, ?_, fun c => ?_⟩
  · rw [hplaced]
    exact h.known
  · rw [hplaced, hshares]
    exact h.apart
  · rw [hplaced, isCovered_constrained, hhits]
    exact h.covered c

/-- The cells of the placed candidates are on the board, so additions leave them alone. -/
theorem Accounted.solutionCandidates_peopled (h : m.Accounted) (name : String) (payload : P)
    (cs : List ConstraintId) :
    (m.peopled name payload cs).solutionCandidates = m.solutionCandidates := by
  have hhints : (m.peopled name payload cs).hints = m.hints := by
    unfold peopled
    rw [foldl_addCell_frame]
  have hstack : (m.peopled name payload cs).solution = m.solution := by
    unfold peopled
    rw [foldl_addCell_frame]
  unfold solutionCandidates
  rw [hhints, hstack]
  refine List.map_congr_left fun x hx => ?_
  have hknown := h.known _ (List.mem_map_of_mem hx)
  have hlt := lt_of_candidateOf_ne_zero (Nat.ne_of_gt hknown.1)
  exact congrArg Cell.candidate (cell_peopled_of_lt name payload cs hlt)

theorem Accounted.peopled (h : m.Accounted) (hl : m.Laid) (name : String) (payload : P)
    (cs : List ConstraintId) : (m.peopled name payload cs).Accounted := by
  have hplaced := h.solutionCandidates_peopled name payload cs
  have hhits : ∀ r ∈ m.solutionCandidates, ∀ c,
      (m.peopled name payload cs).Hits r c ↔ m.Hits r c := by
    intro r hr c
    rw [hl.hits_peopled, if_neg (Nat.ne_of_lt (h.known r hr).2)]
  refine ⟨fun r hr => ?_, ?_, fun c => ?_⟩
  · rw [hplaced] at hr
    obtain ⟨hpos, hlt⟩ := h.known r hr
    refine ⟨hpos, ?_⟩
    rw [size_candidates_peopled]
    exact Nat.lt_succ_of_lt hlt
  · rw [hplaced]
    refine h.apart.imp_of_mem fun {q r} hq hr hqr h' => hqr ?_
    obtain ⟨c, hqc, hrc⟩ := h'
    exact ⟨c, (hhits q hq c).mp hqc, (hhits r hr c).mp hrc⟩
  · rw [hplaced, isCovered_peopled, h.covered]
    exact exists_congr fun r => and_congr_right fun hr => (hhits r hr c).symm

end Additions

/-! ## One step -/

/-- The invariant holds, there is room for additions, and what has been placed accounts for what is
covered. -/
structure Workable (m : Matrix P) : Prop where
  coherent : m.Coherent
  sized : m.Sized
  accounted : m.Accounted

namespace Workable

variable {m n : Matrix P}

theorem empty : (Matrix.empty : Matrix P).Workable :=
  ⟨Fresh.empty.coherent, Sized.empty, Accounted.built .empty⟩

theorem constrained (h : m.Workable) (name : String) (kind : Kind) (primary : Bool) :
    (m.constrained name kind primary).Workable :=
  ⟨h.coherent.constrained name kind primary h.sized, h.sized.constrained name kind primary,
    h.accounted.constrained h.coherent.laid name kind primary⟩

theorem peopled (h : m.Workable) (name : String) (payload : P) {cs : List ConstraintId}
    (hne : cs ≠ []) (hcs : ∀ c ∈ cs, m.HasConstraint c) (hascending : cs.Pairwise (· < ·))
    (hopen : ∀ c ∈ cs, m.isCovered c = false) : (m.peopled name payload cs).Workable :=
  ⟨h.coherent.peopled name payload cs h.sized hne hcs hascending hopen,
    h.sized.peopled name payload cs h.coherent.toThreaded hcs,
    h.accounted.peopled h.coherent.laid name payload cs⟩

theorem apply {a : Action} (h : m.Workable) (ha : a.Allowed m) : (a.apply m).1.Workable := by
  refine ⟨Action.coherent_apply h.coherent ha, ?_, Action.accounted_apply h.coherent ha h.accounted⟩
  cases a with
  | solve x => exact (h.sized.place x).of_links rfl rfl
  | eliminate x => exact h.sized.eliminateRow x

theorem applyAll {as : List Action} (h : m.Workable) (ha : Action.AllAllowed m as) :
    (runChanges Action.apply m as).1.Workable := by
  induction as generalizing m with
  | nil => exact h
  | cons a as ih => exact ih (h.apply ha.1) ha.2

theorem hinted {x : CellId} (h : m.Workable)
    (ha : m.isCandidateActive (m.candidateOf x) = true) : (m.hinted x).Workable :=
  ⟨h.coherent.hinted ha, (h.sized.place x).of_links
    ((board_hinted m x).trans (relinked_place m x).board.symm) (links_hinted m x),
    h.accounted.hinted h.coherent ha⟩

end Workable

end ExactCover.Matrix

namespace ExactCover

/-! ## Runs of the solver as actions -/

section Runs

variable {P : Type} {m : Matrix P}

theorem Action.allAllowed_append {as bs : List Action} (ha : Action.AllAllowed m as)
    (hb : Action.AllAllowed (runChanges Action.apply m as).1 bs) :
    Action.AllAllowed m (as ++ bs) := by
  induction as generalizing m with
  | nil => exact hb
  | cons a as ih => exact ⟨ha.1, ih ha.2 hb⟩

/-- A run performs the actions of its deductions, every one of them when it is allowed. -/
theorem Solver.Ran.actions {strategies : List Strategy} {k : Nat} {out : Matrix P × Report}
    (hr : Solver.Ran strategies k m out) (hm : m.Coherent) :
    Action.AllAllowed m (out.2.deductions.flatMap (·.actions)) ∧
      out.1 = (runChanges Action.apply m (out.2.deductions.flatMap (·.actions))).1 := by
  induction hr with
  | blocked _ => exact ⟨trivial, rfl⟩
  | solved _ => exact ⟨trivial, rfl⟩
  | stuck _ => exact ⟨trivial, rfl⟩
  | spent _ _ => exact ⟨trivial, rfl⟩
  | @apply k m d out hstep _ ih =>
    have hd := Solver.step_applicable hm hstep
    obtain ⟨hallowed, hout⟩ := ih (Deduction.coherent_apply hm hd)
    simp only [List.flatMap_cons]
    refine ⟨Action.allAllowed_append hd hallowed, ?_⟩
    rw [runChanges_append]
    exact hout

theorem Solver.solve_actions {strategies : List Strategy} {n : Matrix P} {report : Report}
    (hm : m.Coherent) (hok : Solver.solve strategies m = .ok (n, report)) :
    Action.AllAllowed m (report.deductions.flatMap (·.actions)) ∧
      n = (runChanges Action.apply m (report.deductions.flatMap (·.actions))).1 :=
  (Solver.solve_ran hok).actions hm

end Runs

/-! ## Any number of steps -/

namespace Matrix

variable {P : Type}

/-- The matrix comes from the empty one by additions, hints, eliminations by name and solving that
succeeded, in any order. A candidate that is to have the constraints of some names is added where
this is allowed. -/
inductive Composed (allow : Matrix P → List String → Prop) : Matrix P → Prop
  | empty : Composed allow .empty
  | constraint {m n : Matrix P} {name : String} {kind : Kind} {primary : Bool}
      {c : ConstraintId} :
      Composed allow m → m.addConstraint name kind primary = .ok (n, c) → Composed allow n
  | candidate {m n : Matrix P} {name : String} {constraints : List String} {payload : P}
      {r : CandidateId} :
      Composed allow m → allow m constraints →
      m.addCandidate name constraints payload = .ok (n, r) → Composed allow n
  | hint {m n : Matrix P} {name : String} {changes : List Change} :
      Composed allow m → m.addHint name = .ok (n, changes) → Composed allow n
  | eliminateCandidate {m n : Matrix P} {name : String} {changes : List Change} :
      Composed allow m → m.eliminateCandidate name = .ok (n, changes) → Composed allow n
  | solve {m n : Matrix P} {strategies : List Strategy} {report : Report} :
      Composed allow m → Solver.solve strategies m = .ok (n, report) → Composed allow n

/-- The constraints of these names are open. -/
def Openly (m : Matrix P) (names : List String) : Prop :=
  ∀ s ∈ names, ∀ c, m.constraintByName? s = some c → m.isCovered c = false

/-- Candidates may be added at any time. -/
def Anytime (_ : Matrix P) (_ : List String) : Prop := True

theorem Composed.workable {m : Matrix P} (h : m.Composed Openly) : m.Workable := by
  induction h with
  | empty => exact Workable.empty
  | constraint _ hadd ih =>
    rw [eq_constrained hadd]
    exact ih.constrained _ _ _
  | candidate _ hopen hadd ih =>
    obtain ⟨cs, hne, hcs, hascending, rfl⟩ := eq_peopled hadd
    refine ih.peopled _ _ hne (ih.coherent.laid.hasConstraint_of_names hcs) hascending
      fun c hc => ?_
    obtain ⟨s, hs, hname⟩ := hcs c hc
    exact hopen s hs c hname
  | hint _ hok ih =>
    obtain ⟨r, -, ha, rfl⟩ := eq_hinted hok
    exact ih.hinted ((ih.coherent.candidateOf_firstCell ha).symm ▸ ha)
  | eliminateCandidate _ hok ih =>
    rcases eliminateCandidate_ok ih.coherent hok with ⟨rfl, -⟩ | ⟨r, ha, -, rfl, -⟩
    · exact ih
    · exact ih.apply (a := .eliminate _) ha
  | solve _ hok ih =>
    obtain ⟨hallowed, rfl⟩ := Solver.solve_actions ih.coherent hok
    exact ih.applyAll hallowed

/-! ## What a workable matrix allows -/

/-- The moves lead from `m` to `n`, and each of them is allowed when its turn comes: a constraint is
open when it is covered, and a candidate is active when it is eliminated. -/
def LeadsTo (m : Matrix P) (as : List Move) (n : Matrix P) : Prop :=
  Move.AllAllowed m as ∧ n = (plays Move.run m as).1

/-- Nothing that is asked of the matrix covers a constraint a second time, and no solution that a
search shows satisfies a constraint twice. -/
structure CoversOnce (m : Matrix P) : Prop where
  open_of_active : ∀ r c, m.isCandidateActive r = true → m.Hits r c → m.isCovered c = false
  hint : ∀ name n changes, m.addHint name = .ok (n, changes) →
    ∃ h k, m.LeadsTo (m.placeMoves h) k ∧ n = { k with hints := k.hints.push h }
  solve : ∀ strategies n report, Solver.solve strategies m = .ok (n, report) →
    m.LeadsTo (report.deductions.flatMap (Deduction.moves m)) n
  search : ∀ (σ : Type) (v : Visitor P σ) limits stats state,
    ∀ showing ∈ Search.showings limits v m stats state, ∃ hs : List CellId,
      m.LeadsTo (hs.flatMap fun h => m.placeMoves h ++ [.push h]) showing.1.matrix
  solution : ∀ (σ : Type) (v : Visitor P σ) limits stats state n goOn,
    (.solution n, goOn) ∈ Search.showings limits v m stats state → ∀ c, n.timesSatisfied c ≤ 1

namespace Workable

variable {m : Matrix P}

/-- Actions that are allowed lead where their moves lead. -/
theorem leadsTo {as : List Action} (h : m.Workable) (ha : Action.AllAllowed m as) :
    m.LeadsTo (as.flatMap (Action.moves m)) (runChanges Action.apply m as).1 := by
  obtain ⟨hplays, hallowed⟩ := Action.moves_applyAll h.coherent ha
  exact ⟨hallowed, hplays⟩

/-- Whatever a search shows comes from its matrix by placing active candidates. -/
theorem placed_of_showings {σ : Type} {limits : SearchLimits} {v : Visitor P σ}
    {stats : Statistics} {state : σ} {showing : Sight P × Bool} (h : m.Workable)
    (hs : showing ∈ Search.showings limits v m stats state) :
    ∃ hs : List CellId, Action.AllAllowed m (hs.map .solve) ∧
      showing.1.matrix = (runChanges Action.apply m (hs.map .solve)).1 := by
  have hvisited := Search.mem_visits_of_showings limits v stats state h.coherent hs
  refine (Search.of_mem_visits (Q := fun n => ∃ hs : List CellId,
      Action.AllAllowed m (hs.map .solve) ∧ n = (runChanges Action.apply m (hs.map .solve)).1)
    (fun n hn => ?_) (fun n c x hn hc hx => ?_) ⟨[], trivial, rfl⟩ hvisited).1
  · obtain ⟨hs, hallowed, rfl⟩ := hn
    exact Action.coherent_applyAll h.coherent hallowed
  · obtain ⟨hs, hallowed, rfl⟩ := hn
    have hcoherent := Action.coherent_applyAll h.coherent hallowed
    have hnext : Action.AllAllowed (runChanges Action.apply m (hs.map .solve)).1 [.solve x] :=
      ⟨hcoherent.active_of_column hc hx, trivial⟩
    refine ⟨hs ++ [x], ?_, ?_⟩
    · rw [List.map_append]
      exact Action.allAllowed_append hallowed hnext
    · rw [List.map_append, runChanges_append]
      rfl

theorem coversOnce (h : m.Workable) : m.CoversOnce := by
  refine ⟨h.coherent.settled, fun name n changes hok => ?_, fun strategies n report hok => ?_,
    fun σ v limits stats state showing hs => ?_, fun σ v limits stats state n goOn hs => ?_⟩
  · obtain ⟨r, -, ha, rfl⟩ := eq_hinted hok
    have hcell := h.coherent.candidateOf_firstCell ha
    exact ⟨_, _, ⟨h.coherent.allAllowed_place (hcell.symm ▸ ha), rfl⟩, by rw [plays_place]; rfl⟩
  · obtain ⟨hallowed, hout⟩ := Solver.solve_actions h.coherent hok
    have hmoves := h.leadsTo hallowed
    rw [List.flatMap_assoc, ← hout] at hmoves
    exact hmoves
  · obtain ⟨hs, hallowed, heq⟩ := h.placed_of_showings hs
    have hmoves := h.leadsTo hallowed
    rw [List.flatMap_map, ← heq] at hmoves
    exact ⟨hs, hmoves⟩
  · obtain ⟨hs, hallowed, heq⟩ := h.placed_of_showings hs
    have hn : (Sight.solution n).matrix.Workable := heq ▸ h.applyAll hallowed
    exact hn.accounted.timesSatisfied_le_one

end Workable

/-- Additions, hints, eliminations and solving may come in any order, as long as every candidate is
added to open constraints: then active candidates have open constraints only, whatever comes next
covers nothing twice, and no solution satisfies a constraint twice. -/
theorem Composed.covers_once {m : Matrix P} (h : m.Composed Openly) : m.CoversOnce :=
  h.workable.coversOnce

/-- The small board when its first candidate has been added and fixed. -/
theorem composed_sampleX {allow : Matrix Unit → List String → Prop}
    (hallow : allow sampleS ["s", "a"]) : (sampleX.hinted 4).Composed allow := by
  have hframe : sampleS.Composed allow :=
    .constraint (.constraint (.constraint .empty addConstraint_sampleA) addConstraint_sampleB)
      addConstraint_sampleS
  have hhint : sampleX.addHint "x" = .ok (sampleX.hinted 4, [.hinted 1]) := by cbv
  exact .hint (.candidate hframe hallow addCandidate_sampleX) hhint

/-- Then comes a constraint, and then a candidate that has it. -/
def sampleOpen : Matrix Unit :=
  ((sampleX.hinted 4).constrained "t" .other false).peopled "y" () [2, 4]

theorem Composed.covers_once_sample :
    sampleOpen.isCandidateActive 2 = true ∧ sampleOpen.isCovered 3 = true ∧
      sampleOpen.CoversOnce := by
  have hfirst : sampleS.Openly ["s", "a"] := fun _ _ c _ => built_sampleS.fresh.uncovered c
  have ht : (sampleX.hinted 4).addConstraint "t" .other false =
      .ok ((sampleX.hinted 4).constrained "t" .other false, 4) := by cbv
  have hopen : ((sampleX.hinted 4).constrained "t" .other false).Openly ["b", "t"] := by
    have hb : ((sampleX.hinted 4).constrained "t" .other false).constraintByName? "b" =
        some 2 := by cbv
    have ht : ((sampleX.hinted 4).constrained "t" .other false).constraintByName? "t" =
        some 4 := by cbv
    intro s hs c hc
    rcases List.mem_pair.mp hs with rfl | rfl
    · cases hb.symm.trans hc
      decide
    · cases ht.symm.trans hc
      decide
  have hy : ((sampleX.hinted 4).constrained "t" .other false).addCandidate "y" ["b", "t"] () =
      .ok (sampleOpen, 2) := by cbv
  exact ⟨by decide, by decide,
    Composed.covers_once (.candidate (.constraint (composed_sampleX hfirst) ht) hopen hy)⟩

/-! ## A candidate that comes late -/

/-- The small board, with a candidate that comes when the one has been fixed that it excludes. -/
def sampleLate : Matrix Unit := (sampleX.hinted 4).peopled "y" () [2, 3]

/-- The candidate that comes late is active although its second constraint is covered. A hint on it
would cover this constraint again, and a search reports both candidates in one solution. -/
theorem sampleLate_covers_twice :
    sampleLate.Composed Anytime ∧
      (sampleLate.isCandidateActive 2 = true ∧ sampleLate.Hits 2 3 ∧
        sampleLate.isCovered 3 = true) ∧
      ((∃ changes, sampleLate.addHint "y" = .ok (sampleLate.hinted 6, changes)) ∧
        ¬ Move.AllAllowed sampleLate (sampleLate.placeMoves 6)) ∧
      (Search.solveAtMost sampleLate 5).2 = .ok [[1, 2]] ∧ sampleLate.Hits 1 3 := by
  have hy : (sampleX.hinted 4).addCandidate "y" ["b", "s"] () = .ok (sampleLate, 2) := by cbv
  refine ⟨.candidate (composed_sampleX trivial) trivial hy, ⟨by decide, by decide, by decide⟩,
    ⟨⟨_, by cbv⟩, fun h => ?_⟩, by cbv, by decide⟩
  have hagain : (Move.cover 3).Allowed _ := h.2.1
  exact absurd hagain.2 (by decide)

end Matrix

end ExactCover
