/-
ExactCover.Proofs.Reversal — what has been tried or deduced is taken back without a
trace.

A search covers and chooses while it runs, and on every way out of it, whatever
ends it, it takes back what it did: `Coherent.search_restores` says so of the search
and of the three questions that are answered by one. The solver leaves its matrix
changed and reports what it did; `Report.rewind` takes the run back, and the changes
that it reports are those of the run, each undone, the last first
(`Reached.rewind_mirrors`). That is the law of one deduction
(`Deduction.undo_apply`) carried through the run by induction (`Solver.Ran.rewind`).

A deduction reports nothing but candidates that it places and candidates that it
rules out (`Change.Narrowing`), so the mirror image consists of candidates that are
taken back and candidates that become possible again.
-/
import ExactCover.Proofs.Applicability
import ExactCover.Proofs.SearchRuns
import ExactCover.Search.Solutions

namespace ExactCover

/-! ## Searches -/

section Searches

variable {P : Type} {m : Matrix P}

/-- A search for up to so many solutions hands back the matrix, whether it fails or not. -/
theorem Search.watch_matrix {σ : Type} (hm : m.Coherent) (v : Visitor P σ) (start : σ)
    (limit : Nat) : (watch v start m limit).1 = m := by
  unfold watch
  split
  · rfl
  · have hback := search_matrix (.solutions limit) v hm {} start
    split
    · next d e heq =>
      rw [heq] at hback
      exact hback
    · next d ending _ heq =>
      rw [heq] at hback
      exact hback

/-- Whatever the limits are, whatever the statistics are added to and whatever the visitor does, and
however the search ends, the matrix is afterwards what it was before. So it is when solutions are
counted or listed up to any limit, or when one is asked for. -/
theorem Matrix.Coherent.search_restores (hm : m.Coherent) :
    (∀ (σ : Type) (limits : SearchLimits) (v : Visitor P σ) (stats : Statistics) (state : σ),
      (Search.search limits v m stats state).1.matrix = m) ∧
    (∀ limit, (Search.countSolutions m limit).1 = m) ∧
    (∀ limit, (Search.solveAtMost m limit).1 = m) ∧
    (Search.solveOne m).1 = m := by
  have hlist : ∀ limit, (Search.solveAtMost m limit).1 = m := fun limit =>
    Search.watch_matrix hm Search.collector #[] limit
  refine ⟨fun σ limits v stats state => Search.search_matrix limits v hm stats state,
    fun limit => Search.watch_matrix hm Search.counter 0 limit, hlist, ?_⟩
  exact hlist 1

/-- A matrix with `y` ruled out, and `x` then chosen by hand: its constraints are covered, and the
solution stack is not empty. Five ways out of a search of it. -/
theorem Matrix.Coherent.search_restores_sample :
    ∃ m : Matrix Unit, m.solution = #[4] ∧ m.isCovered 1 = true ∧
      (∀ limits, (Search.search limits Search.counter m {} 0).1.matrix = m) ∧
      (Search.countSolutions m 7).1 = m ∧
      (Search.search {} Search.counter m {} 0).2 = .exhausted ∧
      (Search.search (.solutions 1) Search.counter m {} 0).2 = .stopped ∧
      (Search.search { maxDepth := 0 } Search.counter m {} 0).2 = .failed (.depthLimit 0) ∧
      (Search.search { maxBranching := 0 } Search.counter m {} 0).2 =
        .failed (.branchLimit 0 1 0) ∧
      (Search.search {} ⟨fun s _ _ _ => s, fun s _ => (s, false)⟩ m {} ()).2 = .stopped := by
  have hopen : ∀ x ∈ [5], ((Matrix.sample.eliminateRow 7).matrix.cover 1).matrix.isCovered
      (Matrix.sample.constraintOf x) = false := by decide
  have hallowed : Move.AllAllowed Matrix.sample [.eliminate 7, .cover 1, .coverRow 4, .push 4] :=
    ⟨(by decide : Matrix.sample.isCandidateActive 2 = true), ⟨⟨by decide, by decide⟩, by decide⟩,
      ⟨by decide, hopen⟩, trivial, trivial⟩
  have hm := Move.coherent_plays (Reached.built Matrix.built_sample).coherent hallowed
  have hrestores := Matrix.Coherent.search_restores hm
  refine ⟨_, rfl, by decide +kernel, fun limits => hrestores.1 Nat limits _ _ _,
    hrestores.2.1 7, ?_⟩
  exact ⟨by decide +kernel, by decide +kernel, by decide +kernel, by decide +kernel,
    by decide +kernel⟩

end Searches

/-! ## Deductions -/

/-- The change places a candidate or rules it out. -/
def Change.Narrowing : Change → Prop
  | .solved _ | .removed _ => True
  | .added _ | .unsolved _ | .hinted _ => False

section Deductions

variable {P : Type} {m : Matrix P}

theorem Action.narrowing_apply (m : Matrix P) (a : Action) :
    ∀ k ∈ (a.apply m).2, k.Narrowing := by
  cases a with
  | solve h =>
    intro k hk
    rcases List.mem_cons.mp hk with rfl | hk
    · exact trivial
    · obtain ⟨r, -, rfl⟩ := List.mem_map.mp hk
      exact trivial
  | eliminate h =>
    intro k hk
    rw [List.mem_singleton.mp hk]
    exact trivial

theorem Action.narrowing_applyAll (m : Matrix P) (as : List Action) :
    ∀ k ∈ (runChanges Action.apply m as).2, k.Narrowing := by
  induction as generalizing m with
  | nil => exact fun k hk => absurd hk List.not_mem_nil
  | cons a as ih =>
    intro k hk
    rcases List.mem_append.mp hk with hk | hk
    · exact Action.narrowing_apply m a k hk
    · exact ih _ k hk

theorem Deduction.narrowing_apply (m : Matrix P) (d : Deduction) :
    ∀ k ∈ (d.apply m).2, k.Narrowing := Action.narrowing_applyAll m d.actions

end Deductions

/-! ## Runs of the solver -/

namespace Solver

variable {P : Type} {strategies : List Strategy}

/-- A run that is taken back leaves the matrix it began with, and reports its changes the other way
round, each undone. -/
theorem Ran.rewind {n : Nat} {m : Matrix P} {out : Matrix P × Report}
    (hr : Ran strategies n m out) (hm : m.Coherent) :
    out.2.rewind out.1 = (m, out.2.changes.reverse.map Change.undone) := by
  induction hr with
  | blocked _ => rfl
  | solved _ => rfl
  | stuck _ => rfl
  | spent _ _ => rfl
  | apply hstep _ ih =>
    have hd := step_applicable hm hstep
    have hrest := ih (Deduction.coherent_apply hm hd)
    have hlast := Deduction.undo_apply hm hd
    unfold Report.rewind at hrest ⊢
    simp only [List.reverse_cons, runChanges_append, hrest, runChanges, hlast, List.append_nil,
      List.reverse_append, List.map_append]

theorem Ran.narrowing {n : Nat} {m : Matrix P} {out : Matrix P × Report}
    (hr : Ran strategies n m out) : ∀ k ∈ out.2.changes, k.Narrowing := by
  induction hr with
  | blocked _ => exact fun k hk => absurd hk List.not_mem_nil
  | solved _ => exact fun k hk => absurd hk List.not_mem_nil
  | stuck _ => exact fun k hk => absurd hk List.not_mem_nil
  | spent _ _ => exact fun k hk => absurd hk List.not_mem_nil
  | apply _ _ ih =>
    intro k hk
    rcases List.mem_append.mp hk with hk | hk
    · exact Deduction.narrowing_apply _ _ k hk
    · exact ih k hk

end Solver

section Rewound

variable {P : Type}

/-- Whatever the strategies are, the report of a run takes the run back: the matrix is what it was
before, with all its links, and the changes are those of the run the other way round, each undone.
So it is with a single deduction, whether a strategy found it or not, when each of its actions is
about a candidate that is active when its turn comes. What is undone are placements and
eliminations alone, and only a matrix without constraints is not run at all. -/
theorem Reached.rewind_mirrors {es : List Entry} {m : Matrix P} (h : Reached es m) :
    (∀ strategies, match Solver.solve strategies m with
      | .error _ => m.constraintCount = 0
      | .ok (n, report) =>
        report.rewind n = (m, report.changes.reverse.map Change.undone) ∧
          ∀ k ∈ report.changes, k.Narrowing) ∧
    ∀ d : Deduction, d.Applicable m →
      d.undo (d.apply m).1 = (m, (d.apply m).2.reverse.map Change.undone) ∧
        ∀ k ∈ (d.apply m).2, k.Narrowing := by
  have hm := h.coherent
  constructor
  · intro strategies
    unfold Solver.solve
    by_cases hzero : m.constraintCount = 0
    · rw [if_pos hzero]
      exact hzero
    · rw [if_neg hzero]
      have hran := Solver.ran_run strategies m.activeCandidateCount m
      exact ⟨hran.rewind hm, hran.narrowing⟩
  · intro d hd
    exact ⟨Deduction.undo_apply hm hd, Deduction.narrowing_apply m d⟩

theorem Reached.rewind_mirrors_sample :
    (∃ n report, Solver.solve Strategy.all Matrix.sample = .ok (n, report) ∧
      report.changes = [.solved 1, .removed 2, .solved 3] ∧
      report.rewind n = (Matrix.sample, [.unsolved 3, .added 2, .unsolved 1])) ∧
    ∃ d : Deduction, d.actions = [.eliminate 7, .solve 4] ∧
      d.undo (d.apply Matrix.sample).1 = (Matrix.sample, [.unsolved 1, .added 2]) := by
  obtain ⟨hsolve, hdeduction⟩ := Reached.rewind_mirrors (.built Matrix.built_sample)
  constructor
  · have hrun := hsolve Strategy.all
    have hok : Solver.solve Strategy.all Matrix.sample =
        .ok (Solver.run Strategy.all 3 Matrix.sample) := rfl
    have hchanges : (Solver.run Strategy.all 3 Matrix.sample).2.changes =
        [.solved 1, .removed 2, .solved 3] := by decide
    rw [hok] at hrun
    generalize Solver.run Strategy.all 3 Matrix.sample = out at hrun hok hchanges
    obtain ⟨n, report⟩ := out
    obtain ⟨hrewind, -⟩ := hrun
    dsimp only at hchanges
    rw [hchanges] at hrewind
    exact ⟨n, report, hok, hchanges, hrewind⟩
  · have happlicable : Action.AllAllowed Matrix.sample [.eliminate 7, .solve 4] :=
      ⟨(by decide : Matrix.sample.isCandidateActive 2 = true),
        (by decide : (Matrix.sample.eliminateRow 7).matrix.isCandidateActive 1 = true), trivial⟩
    have hundo := (hdeduction ⟨.singles, .single 1, [.eliminate 7, .solve 4], ""⟩ happlicable).1
    have hchanges : (runChanges Action.apply Matrix.sample [.eliminate 7, .solve 4]).2 =
        [.removed 2, .solved 1] := by decide
    refine ⟨_, rfl, hundo.trans ?_⟩
    rw [Deduction.apply, hchanges]
    rfl

end Rewound

end ExactCover
