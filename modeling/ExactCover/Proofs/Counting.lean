/-
ExactCover.Proofs.Counting — how many solutions are counted and which are listed.

`found` lists the solutions of a matrix in the order in which a search comes to them,
each as the list of its candidates, fixed and chosen. A search that runs to its end
when nobody stops it counts them, and lists them, up to its limit
(`countSolutions_eq`, `solveAtMost_eq`): the visitors of these searches take no notice
of choices, so of all that is played to them only the solutions count, as many of
them as are asked for (`play_solutions`).

If what has been placed accounts for what is covered, the lists of `found` are
different as sets, and as sets they are the full solutions (`nodup_found`,
`mem_found`).
-/
import ExactCover.Proofs.Placements

namespace ExactCover

/-- The matrix of a sight that is of a solution. -/
def Sight.solution? {P : Type} : Sight P → Option (Matrix P)
  | choice .. => none
  | solution m => some m

namespace Search

variable {P σ : Type}

/-! ## Visitors that look at solutions only -/

/-- The visitor looks at nothing but solutions. -/
def Heedless (v : Visitor P σ) : Prop := ∀ s level h m, v.onTry s level h m = s

theorem heedless_counter : Heedless (counter : Visitor P Nat) := fun _ _ _ _ => rfl

theorem heedless_collector : Heedless (collector : Visitor P (Array (List CandidateId))) :=
  fun _ _ _ _ => rfl

theorem persistent_counter : (counter : Visitor P Nat).Persistent := fun _ _ => rfl

theorem persistent_collector : (collector : Visitor P (Array (List CandidateId))).Persistent :=
  fun _ _ => rfl

/-- Of what is played such a visitor sees the first solutions, as many as are asked for. -/
theorem play_solutions {limits : SearchLimits} {most : Nat}
    (hlimit : limits.maxSolutions = some most) {v : Visitor P σ} (hv : v.Persistent)
    (hheedless : Heedless v) (seen : List (Sight P)) {found : Nat} (hfound : found < most) (s : σ) :
    (play limits v seen (found, s)).1.2 =
      ((seen.filterMap Sight.solution?).take (most - found)).foldl
        (fun s m => (v.onSolution s m).1) s := by
  induction seen generalizing found s with
  | nil => simp [play]
  | cons sight seen ih =>
    cases sight with
    | choice level h m =>
      simp only [play, hheedless s level h m]
      exact ih hfound s
    | solution m =>
      have hrest : (((Sight.solution m :: seen).filterMap Sight.solution?).take (most - found)) =
          m :: (seen.filterMap Sight.solution?).take (most - (found + 1)) := by
        have hleft : most - found = most - (found + 1) + 1 := by omega
        rw [hleft]
        rfl
      rw [hrest, List.foldl_cons]
      by_cases hmore : found + 1 < most
      · have hgo : goesOn limits (found + 1) = true := by simp [goesOn, hlimit, hmore]
        simp only [play, hv s m, hgo, Bool.and_self, if_true]
        exact ih hmore _
      · have hstop : goesOn limits (found + 1) = false := by simp [goesOn, hlimit, hmore]
        have hnone : most - (found + 1) = 0 := by omega
        simp only [play, hstop, Bool.and_false, Bool.false_eq_true, if_false, hnone,
          List.take_zero, List.foldl_nil]

/-! ## The solutions that are found -/

/-- The solutions in the order in which they are found, each as the list of its candidates. -/
def found (m : Matrix P) : List (List CandidateId) :=
  (leaves m.activeConstraintCount m).map fun hs => m.solutionCandidates ++ hs.map m.candidateOf

/-- A search of a matrix with the default ceilings runs to its end when nobody stops it. -/
def RunsOut (m : Matrix P) : Prop :=
  ∀ limit, (visits (.solutions limit) (SearchLimits.solutions limit).maxDepth 0 m).2 = .exhausted

section Found

variable {m : Matrix P}

/-- What is shown as a solution has the hints of the matrix that is searched. -/
theorem hints_of_mem_visits {limits : SearchLimits} {remaining level : Nat} (hm : m.Coherent)
    {n : Matrix P} (hn : .solution n ∈ (visits limits remaining level m).1) :
    n.board = m.board ∧ n.hints = m.hints := by
  have hkept := (of_mem_visits
    (Q := fun n => n.Coherent ∧ n.board = m.board ∧ n.hints = m.hints)
    (fun n hn => hn.1)
    (fun n c h hn hc hh => by
      have hsame := Matrix.relinked_place n h
      exact ⟨coherent_chosen hn.1 (hn.1.active_of_column hc hh), hsame.board.trans hn.2.1,
        hsame.hints.trans hn.2.2⟩)
    ⟨hm, rfl, rfl⟩ hn).1
  exact hkept.2

/-- The solutions that are shown are those that are found. -/
theorem solutions_visits {limits : SearchLimits} (hm : m.Coherent)
    (hend : (visits limits limits.maxDepth 0 m).2 = .exhausted) :
    ((visits limits limits.maxDepth 0 m).1.filterMap Sight.solution?).map
      Matrix.solutionCandidates = found m := by
  have hsolved := solved_visits hm (Nat.le_refl _) hend
  have hcandidates : ∀ n ∈ (visits limits limits.maxDepth 0 m).1.filterMap Sight.solution?,
      n.solutionCandidates =
        m.hints.toList.map m.candidateOf ++ n.solution.toList.map n.candidateOf := by
    intro n hn
    obtain ⟨sight, hs, heq⟩ := List.mem_filterMap.mp hn
    cases sight with
    | choice level h n' => cases heq
    | solution n' =>
      cases heq
      obtain ⟨hb, hhints⟩ := hints_of_mem_visits hm hs
      rw [Matrix.solutionCandidates, List.map_append, hhints, Matrix.candidateOf_of_board hb]
  have hstacks : (visits limits limits.maxDepth 0 m).1.filterMap Sight.solved? =
      ((visits limits limits.maxDepth 0 m).1.filterMap Sight.solution?).map
        fun n => n.solution.toList.map n.candidateOf := by
    rw [List.map_filterMap]
    refine List.filterMap_congr fun sight _ => ?_
    cases sight with
    | choice level h n => rfl
    | solution n => rfl
  have hsplit := congrArg (List.map (m.hints.toList.map m.candidateOf ++ ·))
    (hstacks.symm.trans hsolved)
  rw [List.map_map, List.map_map] at hsplit
  rw [List.map_congr_left hcandidates, found]
  refine hsplit.trans (List.map_congr_left fun hs _ => ?_)
  simp only [Function.comp_apply, Matrix.solutionCandidates, List.map_append, List.append_assoc]

/-- What a search up to a limit comes to for a visitor that looks at solutions only. -/
theorem watch_eq (hm : m.Coherent) (hsome : 0 < m.constraintCount) (hrun : RunsOut m)
    {v : Visitor P σ} (hv : v.Persistent) (hheedless : Heedless v) (start : σ) (limit : Nat) :
    ∃ ms : List (Matrix P), ms.map Matrix.solutionCandidates = found m ∧
      watch v start m limit =
        (m, .ok ((ms.take limit).foldl (fun s m => (v.onSolution s m).1) start)) := by
  refine ⟨_, solutions_visits hm (hrun limit), ?_⟩
  unfold watch
  rcases Nat.eq_zero_or_pos limit with rfl | hpos
  · rw [if_pos rfl, List.take_zero, List.foldl_nil]
  · rw [if_neg (Nat.ne_of_gt hpos)]
    have hmatrix := search_matrix (.solutions limit) v hm {} start
    obtain ⟨hstanding, hending⟩ := search_plays (.solutions limit) v hm hsome {} start
    have hmost : (SearchLimits.solutions limit).maxSolutions = some limit := rfl
    have hplayed := play_solutions hmost hv hheedless
      (visits (.solutions limit) (SearchLimits.solutions limit).maxDepth 0 m).1 hpos start
    rw [Nat.sub_zero] at hplayed
    have hstate := (congrArg (·.2) hstanding).trans hplayed
    rw [hrun limit] at hending
    generalize search (.solutions limit) v m {} start = outcome at hmatrix hending hstate
    obtain ⟨d, ending⟩ := outcome
    have hmatrix : d.matrix = m := hmatrix
    have hstate : d.state = _ := hstate
    cases ending with
    | failed e =>
      -- what is shown has been searched to the end, whether or not the visitor stops before
      generalize (play (.solutions limit) v
        (visits (.solutions limit) (SearchLimits.solutions limit).maxDepth 0 m).1 (0, start)).2 =
        gone at hending
      cases gone <;> cases hending
    | exhausted => exact Prod.ext hmatrix (congrArg Except.ok hstate)
    | stopped => exact Prod.ext hmatrix (congrArg Except.ok hstate)

/-- As many solutions are counted as there are, up to the limit. -/
theorem countSolutions_eq (hm : m.Coherent) (hsome : 0 < m.constraintCount) (hrun : RunsOut m)
    (limit : Nat) : countSolutions m limit = (m, .ok (min limit (found m).length)) := by
  have hcount : ∀ (ms : List (Matrix P)) (n : Nat),
      ms.foldl (fun s m => ((counter : Visitor P Nat).onSolution s m).1) n = n + ms.length := by
    intro ms
    induction ms with
    | nil => exact fun n => rfl
    | cons m ms ih =>
      intro n
      rw [List.foldl_cons, ih, List.length_cons]
      show n + 1 + ms.length = _
      omega
  obtain ⟨ms, hms, hwatch⟩ :=
    watch_eq hm hsome hrun persistent_counter heedless_counter 0 limit
  rw [countSolutions, hwatch, hcount, Nat.zero_add, List.length_take, ← hms, List.length_map]

/-- The solutions are listed in the order in which they are found, up to the limit. -/
theorem solveAtMost_eq (hm : m.Coherent) (hsome : 0 < m.constraintCount) (hrun : RunsOut m)
    (limit : Nat) : solveAtMost m limit = (m, .ok ((found m).take limit)) := by
  obtain ⟨ms, hms, hwatch⟩ :=
    watch_eq hm hsome hrun persistent_collector heedless_collector #[] limit
  have hlist : (ms.take limit).foldl
      (fun s m => ((collector : Visitor P (Array (List CandidateId))).onSolution s m).1) #[] =
      ((ms.take limit).map Matrix.solutionCandidates).toArray := by
    simp [collector]
  rw [solveAtMost, hwatch, hlist, ← hms, ← List.map_take]
  rfl

theorem solveOne_eq (hm : m.Coherent) (hsome : 0 < m.constraintCount) (hrun : RunsOut m) :
    solveOne m = (m, .ok (found m).head?) := by
  rw [solveOne, solveAtMost_eq hm hsome hrun]
  cases found m with
  | nil => rfl
  | cons first rest => rfl

theorem toFinset_found (m : Matrix P) :
    (found m).map List.toFinset = ((leaves m.activeConstraintCount m).map (candidatesOf m)).map
      fun S => m.solutionCandidates.toFinset ∪ S := by
  rw [found, List.map_map, List.map_map]
  exact List.map_congr_left fun hs _ => List.toFinset_append

/-- The full solutions are found. -/
theorem mem_found (hm : m.Coherent) (F : Finset CandidateId) :
    F ∈ (found m).map List.toFinset ↔ m.FullSolution F := by
  rw [toFinset_found, List.mem_map]
  simp only [mem_leaves hm (Nat.le_refl _), Matrix.FullSolution, eq_comm (b := F)]

/-- No full solution is found twice. -/
theorem nodup_found (hm : m.Coherent) (hacc : m.Accounted) :
    ((found m).map List.toFinset).Nodup := by
  rw [toFinset_found]
  refine (nodup_leaves hm (Nat.le_refl _)).map_on fun S hS T hT heq => ?_
  rw [mem_leaves hm (Nat.le_refl _)] at hS hT
  exact hacc.eq_of_union hm hS hT heq

end Found

end Search

end ExactCover
