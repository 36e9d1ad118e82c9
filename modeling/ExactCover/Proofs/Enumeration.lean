/-
ExactCover.Proofs.Enumeration — a search finds every exact cover once.

`leaves k m` lists the cells chosen on the way to each solution, by the recursion
of the search without its limits, its statistics and its visitor. Of the sets of
candidates in it, each is a residual cover, each residual cover is there, and none
is there twice (`mem_leaves`, `nodup_leaves`): a cover has exactly one candidate in
the constraint that is branched on, which is the cell it is found under. A search
that runs to its end shows the leaves (`solved_visits`), and it does so unless a
limit is in the way (`visits_ending`).
-/
import Mathlib.Data.Finset.Basic
import ExactCover.Proofs.ExactCovers
import ExactCover.Proofs.SearchRuns

namespace ExactCover

namespace Search

variable {P : Type}

/-- The cells chosen on the way to each solution, when at most `k` can be chosen. -/
def leaves : Nat → Matrix P → List (List CellId)
  | k, m =>
    match chooseConstraint m with
    | none => [[]]
    | some c =>
      match k with
      | 0 => []
      | k + 1 => (m.column c).flatMap fun h => (leaves k (chosen m h)).map (h :: ·)

/-- The candidates of some cells. -/
def candidatesOf (m : Matrix P) (hs : List CellId) : Finset CandidateId :=
  (hs.map m.candidateOf).toFinset

section Branch

variable {m : Matrix P} {k : Nat} {c : ConstraintId} {h : CellId} {S : Finset CandidateId}

theorem leaves_none (hchoose : chooseConstraint m = none) : leaves k m = [[]] := by
  cases k with
  | zero => rw [leaves, hchoose]
  | succ k => rw [leaves, hchoose]

theorem leaves_succ (hchoose : chooseConstraint m = some c) :
    leaves (k + 1) m =
      (m.column c).flatMap fun h => (leaves k (chosen m h)).map (h :: ·) := by
  rw [leaves, hchoose]

@[simp] theorem candidatesOf_cons (m : Matrix P) (h : CellId) (hs : List CellId) :
    candidatesOf m (h :: hs) = insert (m.candidateOf h) (candidatesOf m hs) := by
  simp [candidatesOf]

theorem candidatesOf_chosen (hm : m.Coherent)
    (ha : m.isCandidateActive (m.candidateOf h) = true) :
    candidatesOf (chosen m h) = candidatesOf m := by
  have hb : (chosen m h).board = m.board := (hm.narrows_place ha).board
  funext hs
  rw [candidatesOf, Matrix.candidateOf_of_board hb]
  rfl

/-- What is known about a cell of a constraint that is branched on. -/
theorem row_facts (hm : m.Coherent) (hc : c ∈ m.activeConstraints) (hh : h ∈ m.column c) :
    m.constraintOf h = c ∧ m.isCandidateActive (m.candidateOf h) = true ∧
      m.Hits (m.candidateOf h) c := by
  obtain ⟨hcon, -, hu⟩ := hm.mem_activeConstraints.mp hc
  obtain ⟨hhc, ha⟩ := (hm.mem_column_iff hcon hu).mp hh
  exact ⟨hhc, ha, h, hm.mem_row ha, hhc⟩

theorem residualCover_chosen (hm : m.Coherent) (hc : c ∈ m.activeConstraints)
    (hh : h ∈ m.column c) :
    (chosen m h).ResidualCover S ↔
      m.candidateOf h ∉ S ∧ m.ResidualCover (insert (m.candidateOf h) S) := by
  obtain ⟨-, ha, hhits⟩ := row_facts hm hc hh
  exact hm.residualCover_solve ha ⟨c, hc, hhits⟩

/-- Every choice leaves fewer active constraints. -/
theorem activeConstraintCount_chosen (hm : m.Coherent) (hc : c ∈ m.activeConstraints)
    (hh : h ∈ m.column c) : (chosen m h).activeConstraintCount < m.activeConstraintCount := by
  obtain ⟨-, ha, hhits⟩ := row_facts hm hc hh
  exact (hm.narrows_place ha).activeConstraintCount_lt hm (hm.place ha) hc hhits

theorem activeCandidateCount_chosen (hm : m.Coherent)
    (ha : m.isCandidateActive (m.candidateOf h) = true) :
    (chosen m h).activeCandidateCount ≤ m.activeCandidateCount :=
  (hm.narrows_place ha).activeCandidateCount_le hm (hm.place ha)

/-- Without an active constraint there is none to branch on. -/
theorem chooseConstraint_none_of_count (hm : m.Coherent) (hk : m.activeConstraintCount ≤ 0) :
    chooseConstraint m = none := by
  rw [hm.activeConstraintCount_eq] at hk
  rw [chooseConstraint_eq_argmin, List.length_eq_zero_iff.mp (Nat.le_zero.mp hk)]
  rfl

end Branch

/-! ## The leaves are the covers -/

/-- The sets of candidates on the leaves are the residual covers. -/
theorem mem_leaves {k : Nat} {m : Matrix P} (hm : m.Coherent)
    (hk : m.activeConstraintCount ≤ k) (S : Finset CandidateId) :
    S ∈ (leaves k m).map (candidatesOf m) ↔ m.ResidualCover S := by
  induction k generalizing m S with
  | zero =>
    have hnone := chooseConstraint_none_of_count hm hk
    rw [leaves_none hnone, Matrix.residualCover_iff_empty (chooseConstraint_none hnone)]
    simp [candidatesOf]
  | succ k ih =>
    cases hchoose : chooseConstraint m with
    | none =>
      rw [leaves_none hchoose, Matrix.residualCover_iff_empty (chooseConstraint_none hchoose)]
      simp [candidatesOf]
    | some c =>
      have hc := chooseConstraint_mem hchoose
      have hrow : ∀ h ∈ m.column c, ∀ T, T ∈ (leaves k (chosen m h)).map (candidatesOf m) ↔
          (chosen m h).ResidualCover T := by
        intro h hh T
        obtain ⟨-, ha, -⟩ := row_facts hm hc hh
        have hless := activeConstraintCount_chosen hm hc hh
        rw [← candidatesOf_chosen hm ha]
        exact ih (coherent_chosen hm ha) (by omega) T
      rw [leaves_succ hchoose, List.mem_map]
      constructor
      · intro h'
        obtain ⟨hs, hmem, rfl⟩ := h'
        obtain ⟨h, hh, hmem⟩ := List.mem_flatMap.mp hmem
        obtain ⟨ts, hts, rfl⟩ := List.mem_map.mp hmem
        have hT := (hrow h hh _).mp (List.mem_map_of_mem hts)
        rw [candidatesOf_cons]
        exact ((residualCover_chosen hm hc hh).mp hT).2
      · intro hS
        obtain ⟨h, hh, hr⟩ := hm.exists_mem_column hc hS
        have hT : (chosen m h).ResidualCover (S.erase (m.candidateOf h)) := by
          rw [residualCover_chosen hm hc hh, Finset.insert_erase hr]
          exact ⟨Finset.notMem_erase _ S, hS⟩
        obtain ⟨ts, hts, hcover⟩ := List.mem_map.mp ((hrow h hh _).mpr hT)
        refine ⟨h :: ts, List.mem_flatMap.mpr ⟨h, hh, List.mem_map_of_mem hts⟩, ?_⟩
        rw [candidatesOf_cons, hcover, Finset.insert_erase hr]

/-- What is found under a cell is the cell's candidate with a cover of what it leaves. -/
theorem residualCover_of_leaf {k : Nat} {m : Matrix P} (hm : m.Coherent)
    (hk : m.activeConstraintCount ≤ k + 1) {c : ConstraintId} (hc : c ∈ m.activeConstraints)
    {h : CellId} (hh : h ∈ m.column c) {hs : List CellId} (hmem : hs ∈ leaves k (chosen m h)) :
    m.candidateOf h ∉ candidatesOf m hs ∧ m.ResidualCover (candidatesOf m (h :: hs)) := by
  obtain ⟨-, ha, -⟩ := row_facts hm hc hh
  have hless := activeConstraintCount_chosen hm hc hh
  have hcover := (mem_leaves (coherent_chosen hm ha) (k := k) (by omega) _).mp
    (List.mem_map_of_mem hmem)
  rw [candidatesOf_chosen hm ha] at hcover
  rw [candidatesOf_cons]
  exact (residualCover_chosen hm hc hh).mp hcover

/-- Of leaves under different cells, one lacks a candidate that the other has. -/
theorem candidatesOf_ne_of_leaves {k : Nat} {m : Matrix P} (hm : m.Coherent)
    (hk : m.activeConstraintCount ≤ k + 1) {c : ConstraintId} (hc : c ∈ m.activeConstraints)
    {g h : CellId} (hg : g ∈ m.column c) (hh : h ∈ m.column c)
    (hne : m.candidateOf g ≠ m.candidateOf h) {gs : List CellId} (hgs : gs ∈ leaves k (chosen m g))
    (hs : List CellId) : candidatesOf m (g :: gs) ≠ candidatesOf m (h :: hs) := by
  intro heq
  have hcover := (residualCover_of_leaf hm hk hc hg hgs).2
  have hgmem : m.candidateOf g ∈ candidatesOf m (g :: gs) := by simp
  have hhmem : m.candidateOf h ∈ candidatesOf m (g :: gs) := by simp [heq]
  exact hne (hcover.eq_of_hits hgmem hhmem (row_facts hm hc hg).2.2 (row_facts hm hc hh).2.2)

/-- No set of candidates is on two leaves. -/
theorem nodup_leaves {k : Nat} {m : Matrix P} (hm : m.Coherent)
    (hk : m.activeConstraintCount ≤ k) : ((leaves k m).map (candidatesOf m)).Nodup := by
  induction k generalizing m with
  | zero =>
    rw [leaves_none (chooseConstraint_none_of_count hm hk)]
    exact List.nodup_singleton _
  | succ k ih =>
    cases hchoose : chooseConstraint m with
    | none =>
      rw [leaves_none hchoose]
      exact List.nodup_singleton _
    | some c =>
      have hc := chooseConstraint_mem hchoose
      have hcon := (hm.mem_activeConstraints.mp hc).1
      rw [leaves_succ hchoose, List.map_flatMap, List.nodup_flatMap]
      constructor
      · intro h hh
        obtain ⟨-, ha, -⟩ := row_facts hm hc hh
        have hless := activeConstraintCount_chosen hm hc hh
        have hchild := ih (coherent_chosen hm ha) (by omega)
        rw [candidatesOf_chosen hm ha] at hchild
        rw [List.map_map]
        refine List.Nodup.map_on ?_ hchild.of_map
        intro ts hts us hus heq
        refine List.inj_on_of_nodup_map hchild hts hus ?_
        simp only [Function.comp_apply, candidatesOf_cons] at heq
        rw [← Finset.erase_insert (residualCover_of_leaf hm hk hc hh hts).1, heq,
          Finset.erase_insert (residualCover_of_leaf hm hk hc hh hus).1]
      · have hdistinct := List.pairwise_map.mp (hm.column_candidates_nodup hcon)
        refine hdistinct.imp_of_mem fun {g h} hg hh hne S hSg hSh => ?_
        obtain ⟨_, hmem, rfl⟩ := List.mem_map.mp hSg
        obtain ⟨gs, hgs, rfl⟩ := List.mem_map.mp hmem
        obtain ⟨_, hmem', heq⟩ := List.mem_map.mp hSh
        obtain ⟨hs, -, rfl⟩ := List.mem_map.mp hmem'
        exact candidatesOf_ne_of_leaves hm hk hc hg hh hne hgs hs heq.symm

/-! ## A search that runs to its end shows the leaves -/

section Shown

variable {m : Matrix P} {level : Nat} {inner : Matrix P → List (Sight P) × Ending}

theorem visitRows_exhausted {rows : List CellId}
    (hend : (visitRows level inner m rows).2 = .exhausted) :
    (∀ h ∈ rows, (inner ((m.coverRow h).matrix.pushSolution h)).2 = .exhausted) ∧
      (visitRows level inner m rows).1.filterMap Sight.solved? =
        rows.flatMap fun h =>
          (inner ((m.coverRow h).matrix.pushSolution h)).1.filterMap Sight.solved? := by
  induction rows with
  | nil => exact ⟨by simp, rfl⟩
  | cons h rows ih =>
    unfold visitRows at hend ⊢
    dsimp only at hend ⊢
    generalize hbelow : inner ((m.coverRow h).matrix.pushSolution h) = below at hend ⊢
    obtain ⟨seen, ending⟩ := below
    cases ending with
    | exhausted =>
      obtain ⟨hrest, hmore⟩ := ih hend
      refine ⟨fun k hk => ?_, ?_⟩
      · rcases List.mem_cons.mp hk with rfl | hk
        · rw [hbelow]
        · exact hrest k hk
      · rw [List.flatMap_cons, hbelow, ← hmore, ← List.filterMap_append]
        rfl
    | stopped => cases hend
    | failed e => cases hend

/-- The choices can only be broken off where one of them is. -/
theorem visitRows_ending {rows : List CellId} {ending : Ending}
    (hend : (visitRows level inner m rows).2 = ending) :
    ending = .exhausted ∨
      ∃ h ∈ rows, (inner ((m.coverRow h).matrix.pushSolution h)).2 = ending := by
  induction rows with
  | nil => exact Or.inl hend.symm
  | cons h rows ih =>
    unfold visitRows at hend
    dsimp only at hend
    generalize hbelow : inner ((m.coverRow h).matrix.pushSolution h) = below at hend
    obtain ⟨seen, last⟩ := below
    cases last with
    | exhausted =>
      rcases ih hend with he | ⟨k, hk, he⟩
      · exact Or.inl he
      · exact Or.inr ⟨k, List.mem_cons_of_mem h hk, he⟩
    | stopped => exact Or.inr ⟨h, List.mem_cons_self, by rw [hbelow]; exact hend⟩
    | failed e => exact Or.inr ⟨h, List.mem_cons_self, by rw [hbelow]; exact hend⟩

/-- What is shown below the rows is the choice of one of them, or it is shown below that. -/
theorem mem_visitRows {rows : List CellId} {sight : Sight P}
    (hs : sight ∈ (visitRows level inner m rows).1) :
    ∃ h ∈ rows, sight = .choice level h ((m.coverRow h).matrix.pushSolution h) ∨
      sight ∈ (inner ((m.coverRow h).matrix.pushSolution h)).1 := by
  induction rows with
  | nil => cases hs
  | cons h rows ih =>
    unfold visitRows at hs
    dsimp only at hs
    generalize hbelow : inner ((m.coverRow h).matrix.pushSolution h) = below at hs
    obtain ⟨seen, ending⟩ := below
    have hfirst : sight ∈ .choice level h ((m.coverRow h).matrix.pushSolution h) :: seen →
        ∃ k ∈ h :: rows, sight = .choice level k ((m.coverRow k).matrix.pushSolution k) ∨
          sight ∈ (inner ((m.coverRow k).matrix.pushSolution k)).1 := fun hseen =>
      ⟨h, List.mem_cons_self, by rw [hbelow]; exact List.mem_cons.mp hseen⟩
    cases ending with
    | exhausted =>
      rcases List.mem_append.mp hs with hseen | hmore
      · exact hfirst hseen
      · obtain ⟨k, hk, hshown⟩ := ih hmore
        exact ⟨k, List.mem_cons_of_mem h hk, hshown⟩
    | stopped => exact hfirst hs
    | failed e => exact hfirst hs

end Shown

section Visits

variable {limits : SearchLimits} {remaining level : Nat} {m : Matrix P}

/-- All that can happen at a node. -/
theorem visits_cases (limits : SearchLimits) (remaining level : Nat) (m : Matrix P) :
    (chooseConstraint m = none ∧
        visits limits remaining level m = ([.solution m], .exhausted)) ∨
      ∃ c, chooseConstraint m = some c ∧
        ((m.len c = 0 ∧ visits limits remaining level m = ([], .exhausted)) ∨
          (remaining = 0 ∧ visits limits remaining level m =
            ([], .failed (.depthLimit limits.maxDepth))) ∨
          (limits.maxBranching < m.len c ∧ visits limits remaining level m =
            ([], .failed (.branchLimit level (m.len c) limits.maxBranching))) ∨
          ∃ fewer, remaining = fewer + 1 ∧ visits limits remaining level m =
            visitRows level (visits limits fewer (level + 1)) (m.cover c).matrix (m.column c)) := by
  cases hchoose : chooseConstraint m with
  | none =>
    refine Or.inl ⟨rfl, ?_⟩
    unfold visits
    simp only [hchoose]
  | some c =>
    refine Or.inr ⟨c, rfl, ?_⟩
    unfold visits
    simp only [hchoose]
    by_cases hzero : m.len c = 0
    · exact Or.inl ⟨hzero, by rw [if_pos hzero]⟩
    · rw [if_neg hzero]
      cases remaining with
      | zero => exact Or.inr (Or.inl ⟨rfl, rfl⟩)
      | succ fewer =>
        by_cases hwide : limits.maxBranching < m.len c
        · exact Or.inr (Or.inr (Or.inl ⟨hwide, if_pos hwide⟩))
        · exact Or.inr (Or.inr (Or.inr ⟨fewer, rfl, if_neg hwide⟩))

/-- What a choice keeps holds of every matrix that is shown, and where a solution is shown nothing
is left to satisfy. -/
theorem of_mem_visits {Q : Matrix P → Prop} (hcoherent : ∀ m, Q m → m.Coherent)
    (hchosen : ∀ m c h, Q m → c ∈ m.activeConstraints → h ∈ m.column c → Q (chosen m h))
    {sight : Sight P} (hm : Q m) (hs : sight ∈ (visits limits remaining level m).1) :
    Q sight.matrix ∧ ∀ n, sight = .solution n → n.activeConstraints = [] := by
  induction remaining using Nat.strong_induction_on generalizing level m with
  | _ remaining ih =>
    rcases visits_cases limits remaining level m with
      ⟨hchoose, heq⟩ | ⟨c, hchoose, ⟨-, heq⟩ | ⟨-, heq⟩ | ⟨-, heq⟩ | ⟨fewer, rfl, heq⟩⟩
    · rw [heq, List.mem_singleton] at hs
      subst hs
      refine ⟨hm, fun n hn => ?_⟩
      cases hn
      exact chooseConstraint_none hchoose
    · rw [heq] at hs
      cases hs
    · rw [heq] at hs
      cases hs
    · rw [heq] at hs
      cases hs
    · have hc := chooseConstraint_mem hchoose
      rw [heq] at hs
      obtain ⟨h, hh, hshown⟩ := mem_visitRows hs
      have hbelow := hchosen m c h hm hc hh
      rw [chosen_eq (row_facts (hcoherent m hm) hc hh).1] at hshown
      rcases hshown with rfl | hshown
      · exact ⟨hbelow, nofun⟩
      · exact ih fewer (Nat.lt_succ_self _) hbelow hshown

/-- The solutions that are shown are the leaves, each behind what had been chosen before. -/
theorem solved_visits {k : Nat} (hm : m.Coherent) (hk : m.activeConstraintCount ≤ k)
    (hend : (visits limits remaining level m).2 = .exhausted) :
    (visits limits remaining level m).1.filterMap Sight.solved? =
      (leaves k m).map fun hs => (m.solution.toList ++ hs).map m.candidateOf := by
  induction remaining using Nat.strong_induction_on generalizing level k m with
  | _ remaining ih =>
    rcases visits_cases limits remaining level m with
      ⟨hchoose, heq⟩ | ⟨c, hchoose, ⟨hzero, heq⟩ | ⟨-, heq⟩ | ⟨-, heq⟩ | ⟨fewer, rfl, heq⟩⟩
    · rw [heq, leaves_none hchoose]
      simp [Sight.solved?]
    · have hc := chooseConstraint_mem hchoose
      rw [hm.len_eq (hm.mem_activeConstraints.mp hc).1] at hzero
      have hleaves : leaves k m = [] := by
        cases k with
        | zero => rw [leaves, hchoose]
        | succ k => rw [leaves_succ hchoose, List.length_eq_zero_iff.mp hzero, List.flatMap_nil]
      rw [heq, hleaves]
      rfl
    · rw [heq] at hend
      cases hend
    · rw [heq] at hend
      cases hend
    · have hc := chooseConstraint_mem hchoose
      rw [heq] at hend ⊢
      obtain ⟨hbelow, hsolved⟩ := visitRows_exhausted hend
      cases k with
      | zero =>
        rw [chooseConstraint_none_of_count hm hk] at hchoose
        cases hchoose
      | succ k =>
        rw [hsolved, leaves_succ hchoose, List.map_flatMap]
        refine List.flatMap_congr fun h hh => ?_
        obtain ⟨hhc, ha, -⟩ := row_facts hm hc hh
        have hless := activeConstraintCount_chosen hm hc hh
        have hend' := hbelow h hh
        rw [chosen_eq hhc] at hend' ⊢
        have hb : (chosen m h).board = m.board := (hm.narrows_place ha).board
        have hstack : (chosen m h).solution.toList = m.solution.toList ++ [h] := by
          have hsame := (Matrix.relinked_place m h).solution
          show ((m.place h).matrix.solution.push h).toList = _
          rw [Array.toList_push]
          exact congrArg (fun s => s.toList ++ [h]) hsame
        have hk' : (chosen m h).activeConstraintCount ≤ k := by omega
        rw [ih fewer (Nat.lt_succ_self _) (coherent_chosen hm ha) hk' hend', List.map_map, hstack,
          Matrix.candidateOf_of_board hb]
        simp [Function.comp_def]

/-- A search that is not broken off by its visitor runs to its end, or a limit was too low: fewer
levels than it takes to use up the active constraints when every choice covers `width` of them, or
fewer ways to branch than there are candidates. -/
theorem visits_ending {Q : Matrix P → Prop} {width : Nat} (limits : SearchLimits)
    (remaining level : Nat) (hcoherent : ∀ m, Q m → m.Coherent)
    (hchosen : ∀ m c h, Q m → c ∈ m.activeConstraints → h ∈ m.column c → Q (chosen m h) ∧
      (chosen m h).activeConstraintCount + width ≤ m.activeConstraintCount) (hq : Q m) :
    (visits limits remaining level m).2 = .exhausted ∨
      ((visits limits remaining level m).2 = .failed (.depthLimit limits.maxDepth) ∧
        remaining * width < m.activeConstraintCount) ∨
      ∃ deep degree, (visits limits remaining level m).2 =
          .failed (.branchLimit deep degree limits.maxBranching) ∧
        limits.maxBranching < degree ∧ degree ≤ m.activeCandidateCount := by
  induction remaining using Nat.strong_induction_on generalizing level m with
  | _ remaining ih =>
    have hm := hcoherent m hq
    rcases visits_cases limits remaining level m with
      ⟨-, heq⟩ | ⟨c, hchoose, ⟨-, heq⟩ | ⟨rfl, heq⟩ | ⟨hwide, heq⟩ | ⟨fewer, rfl, heq⟩⟩
    · exact Or.inl (by rw [heq])
    · exact Or.inl (by rw [heq])
    · refine Or.inr (Or.inl ⟨by rw [heq], ?_⟩)
      rw [Nat.zero_mul]
      refine Nat.pos_of_ne_zero fun hzero => ?_
      rw [chooseConstraint_none_of_count hm (Nat.le_of_eq hzero)] at hchoose
      cases hchoose
    · have hle := hm.len_le_activeCandidateCount (chooseConstraint_mem hchoose)
      exact Or.inr (Or.inr ⟨level, m.len c, by rw [heq], hwide, hle⟩)
    · have hc := chooseConstraint_mem hchoose
      rw [heq]
      rcases visitRows_ending rfl with he | ⟨h, hh, he⟩
      · exact Or.inl he
      · obtain ⟨hhc, ha, -⟩ := row_facts hm hc hh
        obtain ⟨hnext, hless⟩ := hchosen m c h hq hc hh
        have hfewer := activeCandidateCount_chosen hm ha
        rw [chosen_eq hhc] at he
        rw [← he]
        rcases ih fewer (Nat.lt_succ_self _) (level + 1) hnext with
          hend | ⟨hend, hdeep⟩ | ⟨deep, degree, hend, hwide, hle⟩
        · exact Or.inl hend
        · rw [Nat.succ_mul]
          exact Or.inr (Or.inl ⟨hend, by omega⟩)
        · exact Or.inr (Or.inr ⟨deep, degree, hend, hwide, by omega⟩)

/-- Every choice covers the constraint that is branched on at least. -/
theorem coherent_chosen_of_mem (m : Matrix P) (c : ConstraintId) (h : CellId) (hm : m.Coherent)
    (hc : c ∈ m.activeConstraints) (hh : h ∈ m.column c) :
    (chosen m h).Coherent ∧
      (chosen m h).activeConstraintCount + 1 ≤ m.activeConstraintCount :=
  ⟨coherent_chosen hm (row_facts hm hc hh).2.1, activeConstraintCount_chosen hm hc hh⟩

end Visits

end Search

section Enumerated

variable {P : Type}

/-- All visitors that never break off are shown the same, and the search ends in the same way: it
runs to its end when there are as many levels as active constraints and as many ways to branch as
active candidates, and otherwise nothing but one of these limits can prevent it. When it does run
to its end, the solutions that are shown are the residual covers, each of them once. -/
theorem Prepared.search_enumerates {m : Matrix P} (h : Prepared m) (hsome : 0 < m.constraintCount)
    {limits : SearchLimits} (hlimit : limits.maxSolutions = none) :
    ∃ (seen : List (Sight P)) (ending : Ending),
      (∀ (σ : Type) (v : Visitor P σ), v.Persistent → ∀ stats state,
        (Search.search limits v m stats state).1.state = seen.foldl v.see state ∧
          (Search.search limits v m stats state).2 = ending) ∧
      (m.activeConstraintCount ≤ limits.maxDepth → m.activeCandidateCount ≤ limits.maxBranching →
        ending = .exhausted) ∧
      (ending = .exhausted ∨ ending = .failed (.depthLimit limits.maxDepth) ∨
        ∃ level degree, ending = .failed (.branchLimit level degree limits.maxBranching)) ∧
      (ending = .exhausted →
        ((seen.filterMap Sight.solved?).map List.toFinset).Nodup ∧
          ∀ S, S ∈ (seen.filterMap Sight.solved?).map List.toFinset ↔ m.ResidualCover S) := by
  have hm := h.coherent
  have hending := Search.visits_ending limits limits.maxDepth 0 (fun _ hq => hq)
    Search.coherent_chosen_of_mem hm
  rw [Nat.mul_one] at hending
  refine ⟨(Search.visits limits limits.maxDepth 0 m).1,
    (Search.visits limits limits.maxDepth 0 m).2, ?_, ?_, ?_, ?_⟩
  · intro σ v hv stats state
    exact Search.search_shows hlimit hv hm hsome stats state
  · intro hdepth hbranching
    rcases hending with he | ⟨-, hdeep⟩ | ⟨level, degree, -, hwide, hle⟩
    · exact he
    · omega
    · omega
  · rcases hending with he | ⟨he, -⟩ | ⟨level, degree, he, -⟩
    · exact Or.inl he
    · exact Or.inr (Or.inl he)
    · exact Or.inr (Or.inr ⟨level, degree, he⟩)
  · intro hend
    have hsets : ((Search.visits limits limits.maxDepth 0 m).1.filterMap Sight.solved?).map
        List.toFinset = (Search.leaves m.activeConstraintCount m).map (Search.candidatesOf m) := by
      rw [Search.solved_visits hm (Nat.le_refl _) hend, h.solution_eq, List.map_map]
      rfl
    rw [hsets]
    exact ⟨Search.nodup_leaves hm (Nat.le_refl _), Search.mem_leaves hm (Nat.le_refl _)⟩

theorem Prepared.search_enumerates_sample :
    ∃ seen : List (Sight Unit),
      (∀ (σ : Type) (v : Visitor Unit σ), v.Persistent → ∀ stats state,
        (Search.search {} v Matrix.sample stats state).1.state = seen.foldl v.see state) ∧
      ∀ S, S ∈ (seen.filterMap Sight.solved?).map List.toFinset ↔
        Matrix.sample.ResidualCover S := by
  obtain ⟨seen, ending, hshown, hroom, -, hcovers⟩ :=
    Prepared.search_enumerates (.built Matrix.built_sample) (by decide)
      (rfl : ({} : SearchLimits).maxSolutions = none)
  exact ⟨seen, fun σ v hv stats state => (hshown σ v hv stats state).1,
    (hcovers (hroom (by decide) (by decide))).2⟩

end Enumerated

end ExactCover
