/-
ExactCover.Proofs.Sudoku.Setup — the board with givens and eliminations.

Setting up a description fixes the candidates of its givens and eliminates the
candidates it names, apart from those that were fixed; so that is what it asks of the
full solutions of the empty board (`asks_ofDescription`).

`Fixes` says what is left on the way, and each step keeps it. So setting up succeeds if no
two givens have a constraint in common and all names are those of placements
(`exists_ofDescription`).
-/
import ExactCover.Proofs.Givens
import ExactCover.Proofs.Sudoku.Encoding

namespace ExactCover.Sudoku

open ExactCover.Matrix (Asks)

section Setup

variable {m n : Matrix Placement} {fixed out : List CandidateId}

theorem asks_addGivens {ps : List Placement} (h : Asks board m fixed [])
    (hps : ∀ p ∈ ps, p.OnBoard) (hok : Puzzle.addGivens m ps = .ok n) :
    ∃ fixed', Asks board n fixed' [] ∧
      ∀ r, r ∈ fixed' ↔ r ∈ fixed ∨ r ∈ ps.map Placement.number := by
  induction ps generalizing m fixed with
  | nil =>
    cases hok
    exact ⟨fixed, h, fun r => by simp⟩
  | cons p ps ih =>
    unfold Puzzle.addGivens at hok
    split at hok
    · cases hok
    · next m' changes hadd =>
      have hname := (encodes_of_board h.board).candidateByName?_name (hps p List.mem_cons_self)
      obtain ⟨fixed', hnext, hmem⟩ := ih (h.hint encodes_board.primary hname hadd)
        (fun q hq => hps q (List.mem_cons_of_mem p hq)) hok
      refine ⟨fixed', hnext, fun r => ?_⟩
      rw [hmem, List.map_cons, List.mem_cons, List.mem_cons, or_left_comm, or_assoc]

theorem asks_eliminateAll {names : List String} (h : Asks board m fixed out)
    (hok : Puzzle.eliminateAll m names = .ok n) :
    ∃ out', Asks board n fixed out' ∧ ∀ r, r ∈ out' ↔
      r ∈ out ∨ ((1 ≤ r ∧ r ≤ 729) ∧ (placementAt r).name ∈ names) := by
  induction names generalizing m out with
  | nil =>
    cases hok
    exact ⟨out, h, fun r => by simp⟩
  | cons name names ih =>
    have hencodes := encodes_of_board h.board
    unfold Puzzle.eliminateAll at hok
    split at hok
    · cases hok
    · next r hname =>
      split at hok
      · cases hok
      · next m' changes hremove =>
        obtain ⟨out', hnext, hmem⟩ := ih (h.eliminate hname hremove) hok
        refine ⟨out', hnext, fun q => ?_⟩
        have hone : (1 ≤ q ∧ q ≤ 729) ∧ (placementAt q).name = name ↔ q = r := by
          rw [← hencodes.hasCandidate, ← hencodes.candidateByName, hname, Option.some.injEq,
            eq_comm]
        rw [hmem, List.mem_cons, List.mem_cons, and_or_left, hone, or_assoc, or_left_comm]

/-- A puzzle that is set up has the givens fixed and the named candidates eliminated. -/
theorem ofDescription_ok {d : Description} {p : Puzzle} (h : Puzzle.ofDescription d = .ok p) :
    ∃ m n, Puzzle.addGivens board d.givens = .ok m ∧
      Puzzle.eliminateAll m d.eliminations = .ok n ∧ p = ⟨n⟩ := by
  rw [Puzzle.ofDescription, Puzzle.empty_eq] at h
  simp only [Except.mapError, Except.bind] at h
  split at h
  · cases h
  · next m hgivens =>
    cases hout : Puzzle.eliminateAll m d.eliminations with
    | error e =>
      rw [hout] at h
      cases h
    | ok n =>
      rw [hout] at h
      cases h
      exact ⟨m, n, hgivens, hout, rfl⟩

/-- So the givens are asked for, and the named candidates may not be there. -/
theorem asks_ofDescription {d : Description} {p : Puzzle} (h : Puzzle.ofDescription d = .ok p)
    (hgivens : ∀ q ∈ d.givens, q.OnBoard) :
    ∃ fixed out, Asks board p.matrix fixed out ∧
      (∀ r, r ∈ fixed ↔ r ∈ d.givens.map Placement.number) ∧
      ∀ r, r ∈ out ↔ (1 ≤ r ∧ r ≤ 729) ∧ (placementAt r).name ∈ d.eliminations := by
  obtain ⟨m, n, hm, hn, rfl⟩ := ofDescription_ok h
  obtain ⟨fixed, hfixed, hmem⟩ := asks_addGivens (Asks.built built_board) hgivens hm
  obtain ⟨out, hasks, hmemOut⟩ := asks_eliminateAll hfixed hn
  simp only [List.not_mem_nil, false_or] at hmem hmemOut
  exact ⟨fixed, out, hasks, hmem, hmemOut⟩

end Setup

/-! ## What is left -/

/-- Two placements have no constraint in common. -/
def Placement.Apart (p q : Placement) : Prop := ∀ c ∈ p.constraintNumbers, c ∉ q.constraintNumbers

instance (p q : Placement) : Decidable (p.Apart q) :=
  inferInstanceAs (Decidable (∀ c ∈ p.constraintNumbers, c ∉ q.constraintNumbers))

theorem Placement.Apart.symm {p q : Placement} (h : p.Apart q) : q.Apart p :=
  fun c hq hp => h c hp hq

/-- The matrix is that of the board, with these placements fixed in this order and the candidates of
these names eliminated. -/
structure Fixes (m : Matrix Placement) (fixed : List Placement) (gone : List String) : Prop where
  coherent : m.Coherent
  board : m.board = board.board
  onBoard : ∀ p ∈ fixed, p.OnBoard
  hints : m.hints.toList.map m.candidateOf = fixed.map Placement.number
  solution : m.solution = #[]
  covered : ∀ c, m.isCovered c = true ↔ ∃ p ∈ fixed, c ∈ p.constraintNumbers
  active : ∀ p : Placement, p.OnBoard →
    (m.isCandidateActive p.number = true ↔ (∀ q ∈ fixed, p.Apart q) ∧ p.name ∉ gone)

theorem fixes_board : Fixes board [] [] where
  coherent := built_board.fresh.coherent
  board := rfl
  onBoard := by simp
  hints := by simp [built_board.nothing_placed.1]
  solution := built_board.nothing_placed.2
  covered := by simp [built_board.fresh.uncovered]
  active := fun p hp => by
    have hactive := built_board.fresh.active p.number (hasCandidate_board.mpr hp.number_bounds)
    simp [hactive]

namespace Fixes

variable {m : Matrix Placement} {fixed : List Placement} {gone : List String} {p : Placement}

theorem encodes (h : Fixes m fixed gone) : Encodes m := encodes_of_board h.board

theorem hits (h : Fixes m fixed gone) (hp : p.OnBoard) (c : ConstraintId) :
    m.Hits p.number c ↔ c ∈ p.constraintNumbers := by
  rw [h.encodes.hits _ ((h.encodes.hasCandidate _).mpr hp.number_bounds), hp.placementAt_number]

theorem shares (h : Fixes m fixed gone) {q : Placement} (hp : p.OnBoard) (hq : q.OnBoard) :
    ¬ Matrix.Coherent.Shares m p.number q.number ↔ p.Apart q := by
  simp only [Matrix.Coherent.Shares, h.hits hp, h.hits hq, not_exists, not_and]
  rfl

/-- A placement that is apart from all that are fixed can be fixed next. -/
theorem hint (h : Fixes m fixed []) (hp : p.OnBoard) (hapart : ∀ q ∈ fixed, p.Apart q) :
    ∃ n changes, m.addHint p.name = .ok (n, changes) ∧ Fixes n (fixed ++ [p]) [] := by
  have ha : m.isCandidateActive p.number = true := (h.active p hp).mpr ⟨hapart, by simp⟩
  have hcell := h.coherent.candidateOf_firstCell ha
  have hac : m.isCandidateActive (m.candidateOf (m.firstCell p.number)) = true := hcell.symm ▸ ha
  have hn := h.coherent.narrows_hinted hac
  rw [hcell] at hn
  obtain ⟨changes, hadd⟩ := Matrix.addHint_eq (h.encodes.candidateByName?_name hp) ha
  refine ⟨_, changes, hadd, h.coherent.hinted hac, hn.board.trans h.board, fun q hq => ?_, ?_,
    (Matrix.solution_hinted m _).trans h.solution, fun c => ?_, fun q hq => ?_⟩
  · rcases List.mem_append.mp hq with hq | hq
    · exact h.onBoard q hq
    · exact List.mem_singleton.mp hq ▸ hp
  · rw [Matrix.hints_hinted, Matrix.candidateOf_of_board hn.board, Array.toList_push,
      List.map_append, h.hints, List.map_append, List.map_singleton, List.map_singleton, hcell]
  · rw [hn.covered, h.covered, h.hits hp]
    simp only [List.mem_append, List.mem_singleton, or_and_right, exists_or, exists_eq_left]
  · rw [hn.active, h.active q hq, h.shares hq hp]
    simp only [List.mem_append, List.mem_singleton, or_imp, forall_and, forall_eq, and_right_comm]

/-- Any placement can be eliminated, unless it is gone already. -/
theorem eliminate (h : Fixes m fixed gone) (hp : p.OnBoard) :
    ∃ n changes, m.eliminateCandidate p.name = .ok (n, changes) ∧
      Fixes n fixed (gone ++ [p.name]) := by
  have hname : ∀ q : Placement, q.OnBoard →
      (q.name ∉ gone ++ [p.name] ↔ q.name ∉ gone ∧ q ≠ p) := by
    intro q hq
    rw [List.mem_append, List.mem_singleton, not_or]
    exact and_congr_right fun _ => not_congr ⟨placementName_injective hq hp, congrArg _⟩
  have heliminate := Matrix.eliminateCandidate_eq (h.encodes.candidateByName?_name hp)
  cases ha : m.isCandidateActive p.number with
  | false =>
    rw [ha, if_neg Bool.false_ne_true] at heliminate
    refine ⟨m, [], heliminate, { h with active := fun q hq => ?_ }⟩
    rw [h.active q hq, hname q hq, ← and_assoc]
    refine (and_iff_left_of_imp fun hq' => ?_).symm
    rintro rfl
    rw [(h.active q hq).mpr hq'] at ha
    cases ha
  | true =>
    rw [ha, if_pos rfl] at heliminate
    have hcell := h.coherent.candidateOf_firstCell ha
    have hac : m.isCandidateActive (m.candidateOf (m.firstCell p.number)) = true :=
      hcell.symm ▸ ha
    have hn := h.coherent.narrows_eliminateRow hac
    rw [hcell] at hn
    have hsame := Matrix.relinked_eliminateRow m (m.firstCell p.number)
    refine ⟨_, _, heliminate, h.coherent.eliminateRow hac, hsame.board.trans h.board, h.onBoard, ?_,
      hsame.solution.trans h.solution, fun c => ?_, fun q hq => ?_⟩
    · rw [hsame.hints, Matrix.candidateOf_of_board hsame.board]
      exact h.hints
    · rw [hn.covered, or_false, h.covered]
    · rw [hn.active, h.active q hq, hname q hq, and_assoc]
      exact and_congr_right fun _ => and_congr_right fun _ =>
        not_congr ⟨number_injective hq hp, congrArg _⟩

/-- Placements that are apart from each other can be fixed one after another. -/
theorem addGivens {ps : List Placement} (h : Fixes m fixed []) (hps : ∀ p ∈ ps, p.OnBoard)
    (hapart : (fixed ++ ps).Pairwise Placement.Apart) :
    ∃ n, Puzzle.addGivens m ps = .ok n ∧ Fixes n (fixed ++ ps) [] := by
  induction ps generalizing m fixed with
  | nil => exact ⟨m, rfl, by rwa [List.append_nil]⟩
  | cons p ps ih =>
    have hbefore : ∀ q ∈ fixed, p.Apart q := fun q hq =>
      ((List.pairwise_append.mp hapart).2.2 q hq p List.mem_cons_self).symm
    obtain ⟨n, changes, hadd, hnext⟩ := h.hint (hps p List.mem_cons_self) hbefore
    rw [List.append_cons] at hapart ⊢
    unfold Puzzle.addGivens
    simp only [hadd]
    exact ih hnext (fun q hq => hps q (List.mem_cons_of_mem p hq)) hapart

/-- Names of candidates can be eliminated one after another. -/
theorem eliminateAll {names : List String} (h : Fixes m fixed gone)
    (hnames : ∀ s ∈ names, ∃ p : Placement, p.OnBoard ∧ p.name = s) :
    ∃ n, Puzzle.eliminateAll m names = .ok n ∧ Fixes n fixed (gone ++ names) := by
  induction names generalizing m gone with
  | nil => exact ⟨m, rfl, by rwa [List.append_nil]⟩
  | cons s names ih =>
    obtain ⟨p, hp, rfl⟩ := hnames s List.mem_cons_self
    obtain ⟨n, changes, heliminate, hnext⟩ := h.eliminate hp
    rw [List.append_cons]
    unfold Puzzle.eliminateAll
    simp only [h.encodes.candidateByName?_name hp, heliminate]
    exact ih hnext fun q hq => hnames q (List.mem_cons_of_mem _ hq)

end Fixes

/-- Givens can be fixed that are apart from each other, and then the names decide. -/
theorem ofDescription_givens {d : Description} (hgivens : ∀ p ∈ d.givens, p.OnBoard)
    (hapart : d.givens.Pairwise Placement.Apart) :
    ∃ m, Fixes m d.givens [] ∧
      Puzzle.ofDescription d = (Puzzle.eliminateAll m d.eliminations).map Puzzle.mk := by
  obtain ⟨m, hm, hfixes⟩ := fixes_board.addGivens hgivens hapart
  refine ⟨m, hfixes, ?_⟩
  rw [Puzzle.ofDescription, Puzzle.empty_eq]
  simp only [Except.mapError, Except.bind, hm]

/-- A description can be set up if no two givens have a constraint in common and every name is that
of a placement. -/
theorem exists_ofDescription {d : Description} (hgivens : ∀ p ∈ d.givens, p.OnBoard)
    (hapart : d.givens.Pairwise Placement.Apart)
    (hknown : ∀ name ∈ d.eliminations, ∃ p : Placement, p.OnBoard ∧ p.name = name) :
    ∃ m, Puzzle.ofDescription d = .ok ⟨m⟩ ∧ Fixes m d.givens d.eliminations := by
  obtain ⟨m, hfixes, hok⟩ := ofDescription_givens hgivens hapart
  obtain ⟨n, hn, hleft⟩ := hfixes.eliminateAll hknown
  refine ⟨n, ?_, hleft⟩
  rw [hok, hn]
  rfl

end ExactCover.Sudoku
