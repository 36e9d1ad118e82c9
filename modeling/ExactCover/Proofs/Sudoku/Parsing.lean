/-
ExactCover.Proofs.Sudoku.Parsing — which texts are puzzles, and which puzzles they are.

Parsing goes by the verdict of the grammar on the lines of a text (`Puzzle.parse_accepts`,
`Puzzle.parse_rejects`), and there is always one.

A given can be fixed because it meets none before it: the houses in which the reader
looks for repetitions are those of the constraints of a placement
(`Placement.OnBoard.apart_iff`), so where the reader finds no fault no hint is refused,
and the matrix never has an error to report. What is left then is counted.
-/
import ExactCover.Proofs.Sudoku.Grammar
import ExactCover.Proofs.Sudoku.Setup

namespace ExactCover.Sudoku

open Grammar (candidateNames)

/-! ## Placements that exclude each other -/

/-- The placements share their cell, or the digit of a row, a column or a box. -/
def Placement.Meets (p q : Placement) : Prop :=
  (p.row = q.row ∧ p.col = q.col) ∨ (p.row = q.row ∧ p.digit = q.digit) ∨
    (p.col = q.col ∧ p.digit = q.digit) ∨ (p.box = q.box ∧ p.digit = q.digit)

instance (p q : Placement) : Decidable (p.Meets q) :=
  inferInstanceAs (Decidable (_ ∨ _ ∨ _ ∨ _))

section Meets

variable {p q : Placement}

/-- What placements share is a constraint. -/
theorem Placement.OnBoard.apart_iff (hp : p.OnBoard) (hq : q.OnBoard) :
    p.Apart q ↔ ¬ p.Meets q := by
  have hpbox := hp.box_lt
  have hqbox := hq.box_lt
  obtain ⟨hrow, hcol, hpos, hdigit⟩ := hp
  obtain ⟨hrow', hcol', hpos', hdigit'⟩ := hq
  -- the constraints of one kind come after all of the kind before it
  have hkinds : ∀ c, c ∉ q.constraintNumbers ↔ c ≠ q.row * 9 + q.col + 1 ∧
      c ≠ 81 + (q.row * 9 + q.digit) ∧ c ≠ 162 + (q.col * 9 + q.digit) ∧
      c ≠ 243 + (q.box * 9 + q.digit) := by
    simp [constraintNumbers]
  have hcell : p.row * 9 + p.col + 1 ∉ q.constraintNumbers ↔
      ¬ (p.row = q.row ∧ p.col = q.col) := by
    rw [hkinds]
    omega
  have hrows : 81 + (p.row * 9 + p.digit) ∉ q.constraintNumbers ↔
      ¬ (p.row = q.row ∧ p.digit = q.digit) := by
    rw [hkinds]
    omega
  have hcols : 162 + (p.col * 9 + p.digit) ∉ q.constraintNumbers ↔
      ¬ (p.col = q.col ∧ p.digit = q.digit) := by
    rw [hkinds]
    omega
  have hboxes : 243 + (p.box * 9 + p.digit) ∉ q.constraintNumbers ↔
      ¬ (p.box = q.box ∧ p.digit = q.digit) := by
    rw [hkinds]
    omega
  show (∀ c ∈ [p.row * 9 + p.col + 1, 81 + (p.row * 9 + p.digit), 162 + (p.col * 9 + p.digit),
    243 + (p.box * 9 + p.digit)], c ∉ q.constraintNumbers) ↔ _
  rw [List.forall_mem_cons, List.forall_mem_cons, List.forall_mem_cons, List.forall_mem_singleton,
    hcell, hrows, hcols, hboxes, Meets, not_or, not_or, not_or]

end Meets

theorem mem_candidateNames {s : String} :
    s ∈ candidateNames ↔ ∃ p : Placement, p.OnBoard ∧ p.name = s := by
  simp only [candidateNames, List.mem_map, mem_boardPlacements]

/-! ## Words that are no names -/

namespace Fixes

variable {m : Matrix Placement} {fixed : List Placement} {gone : List String} {p : Placement}

theorem candidateByName?_none {s : String} (h : Fixes m fixed gone) (hs : s ∉ candidateNames) :
    m.candidateByName? s = none := by
  refine Option.eq_none_iff_forall_ne_some.mpr fun r hr => hs ?_
  obtain ⟨hcandidate, rfl⟩ := (h.encodes.candidateByName s r).mp hr
  have hp := onBoard_placementAt ((h.encodes.hasCandidate r).mp hcandidate)
  exact mem_candidateNames.mpr ⟨_, hp, rfl⟩

/-- The first name that is not that of a candidate is reported. -/
theorem eliminateAll_error {names : List String} {s : String} (h : Fixes m fixed gone)
    (hfirst : names.find? (fun s => s ∉ candidateNames) = some s) :
    Puzzle.eliminateAll m names = .error (.unknownCandidate s) := by
  induction names generalizing m gone with
  | nil => cases hfirst
  | cons t names ih =>
    unfold Puzzle.eliminateAll
    by_cases ht : t ∈ candidateNames
    · obtain ⟨p, hp, rfl⟩ := mem_candidateNames.mp ht
      obtain ⟨n, changes, heliminate, hnext⟩ := h.eliminate hp
      rw [List.find?_cons_of_neg (by simpa using ht)] at hfirst
      simp only [h.encodes.candidateByName?_name hp, heliminate]
      exact ih hnext hfirst
    · rw [List.find?_cons_of_pos (by simpa using ht)] at hfirst
      cases hfirst
      simp only [h.candidateByName?_none ht]

/-! ## What is left, counted -/

/-- The constraints that are covered are four for every placement. -/
theorem length_covered (h : Fixes m fixed gone) (hapart : fixed.Pairwise Placement.Apart) :
    ((List.range' 1 324).filter m.isCovered).length = 4 * fixed.length := by
  have hnodup : (fixed.flatMap Placement.constraintNumbers).Nodup := by
    refine List.pairwise_flatMap.mpr ⟨fun p hp => ?_, hapart.imp fun hpq c hc d hd => ?_⟩
    · exact (h.onBoard p hp).constraintNumbers_ascending.imp Nat.ne_of_lt
    · rintro rfl
      exact hpq c hc hd
  have hperm : ((List.range' 1 324).filter m.isCovered).Perm
      (fixed.flatMap Placement.constraintNumbers) := by
    refine (List.perm_ext_iff_of_nodup ((List.nodup_range' 1).filter _) hnodup).mpr fun c => ?_
    rw [List.mem_filter, List.mem_range'_1, h.covered, List.mem_flatMap]
    refine and_iff_right_of_imp fun hc => ?_
    obtain ⟨p, hp, hc⟩ := hc
    have hbounds := (h.onBoard p hp).constraintNumbers_bounds c hc
    omega
  have hfour : ∀ p : Placement, p.constraintNumbers.length = 4 := fun _ => rfl
  rw [hperm.length_eq, List.length_flatMap]
  simp [hfour, Nat.mul_comm]

theorem activeConstraintCount_add (h : Fixes m fixed gone)
    (hapart : fixed.Pairwise Placement.Apart) :
    m.activeConstraintCount + 4 * fixed.length = 324 := by
  have hopen : m.activeConstraints = (List.range' 1 324).filter fun c => !m.isCovered c := by
    rw [h.coherent.constraints.activeConstraints_eq, Matrix.openConstraints,
      h.encodes.constraintCount]
    refine List.filter_congr fun c hc => ?_
    have hprimary : m.isPrimary c = true := by
      refine h.encodes.primary c ((h.encodes.hasConstraint c).mpr ?_)
      rw [List.mem_range'_1] at hc
      omega
    rw [Matrix.isConstraintActive, hprimary, Bool.true_and]
  have hparts := List.length_eq_length_filter_add (l := List.range' 1 324) m.isCovered
  rw [h.coherent.activeConstraintCount_eq, hopen, ← h.length_covered hapart, Nat.add_comm, ← hparts,
    List.length_range']

theorem payload (h : Fixes m fixed gone) (hp : p.OnBoard) : m.payload p.number = some p := by
  rw [h.encodes.payload _ ((h.encodes.hasCandidate _).mpr hp.number_bounds), hp.placementAt_number]

/-- The candidates that are left are the placements that meet none of the fixed ones and are not
eliminated. -/
theorem activeCandidates_eq (h : Fixes m fixed gone) :
    m.activeCandidates.map m.payload = (boardPlacements.filter fun p =>
      (∀ q ∈ fixed, ¬ p.Meets q) ∧ p.name ∉ gone).map some := by
  rw [h.coherent.candidates.activeCandidates_eq, Matrix.openCandidates, h.encodes.candidateCount,
    boardPlacements_eq, List.filter_map, List.map_map]
  have hboard : ∀ r ∈ List.range' 1 729, (placementAt r).OnBoard ∧ (placementAt r).number = r := by
    intro r hr
    rw [List.mem_range'_1] at hr
    have hbounds : 1 ≤ r ∧ r ≤ 729 := by omega
    exact ⟨onBoard_placementAt hbounds, number_placementAt hbounds⟩
  have hfilter : (List.range' 1 729).filter m.isCandidateActive =
      (List.range' 1 729).filter ((fun p : Placement =>
        decide ((∀ q ∈ fixed, ¬ p.Meets q) ∧ p.name ∉ gone)) ∘ placementAt) := by
    refine List.filter_congr fun r hr => ?_
    obtain ⟨hp, hnumber⟩ := hboard r hr
    have hactive := h.active _ hp
    rw [hnumber] at hactive
    rw [Bool.eq_iff_iff, hactive, Function.comp_apply, decide_eq_true_eq]
    exact and_congr_left fun _ => forall₂_congr fun q hq => hp.apart_iff (h.onBoard q hq)
  rw [hfilter]
  refine List.map_congr_left fun r hr => ?_
  obtain ⟨hp, hnumber⟩ := hboard r (List.mem_of_mem_filter hr)
  have hpayload := h.payload hp
  rwa [hnumber] at hpayload

end Fixes

/-! ## Parsing -/

/-- The puzzle has these hints, all candidates but those that meet one of them or are eliminated by
name, and all constraints but the four of each hint. -/
structure Puzzle.Shows (p : Puzzle) (givens : List Placement) (eliminated : List String) :
    Prop where
  hints : (p.matrix.hints.toList.map p.matrix.candidateOf).map p.matrix.payload = givens.map some
  candidates : p.matrix.activeCandidates.map p.matrix.payload = (boardPlacements.filter fun q =>
    (∀ g ∈ givens, ¬ q.Meets g) ∧ q.name ∉ eliminated).map some
  constraints : p.matrix.activeConstraintCount + 4 * givens.length = 324

theorem Fixes.shows {m : Matrix Placement} {fixed : List Placement} {gone : List String}
    (h : Fixes m fixed gone) (hapart : fixed.Pairwise Placement.Apart) :
    Puzzle.Shows ⟨m⟩ fixed gone := by
  refine ⟨?_, h.activeCandidates_eq, h.activeConstraintCount_add hapart⟩
  rw [h.hints, List.map_map]
  exact List.map_congr_left fun p hp => h.payload (h.onBoard p hp)

section Parsing

variable {text : String} {rows rest : List (List Char)}

/-- Flawless rows give placements that are apart from each other. -/
theorem pairwise_apart_givens (hheight : rows.length = 9) (h : Grammar.Flawless rows) :
    (Grammar.givens rows).Pairwise Placement.Apart := by
  have honBoard : ∀ p ∈ Grammar.givens rows, p.OnBoard := fun p hp =>
    Grammar.onBoard_givens hheight h.width hp
  refine (Grammar.nodup_givens rows).imp_of_mem fun {p q} hp hq hne => ?_
  rw [(honBoard p hp).apart_iff (honBoard q hq)]
  rintro (⟨hrow, hcol⟩ | ⟨hrow, hdigit⟩ | ⟨hcol, hdigit⟩ | ⟨hbox, hdigit⟩)
  · exact hne (Grammar.eq_of_cell hp hq hrow hcol)
  · exact (h.once p hp q hq hne hdigit).1 hrow
  · exact (h.once p hp q hq hne hdigit).2.1 hcol
  · exact (h.once p hp q hq hne hdigit).2.2 hbox

/-- A text with flawless rows is set up from what is in it. -/
theorem Puzzle.parse_flawless (hlayout : Grammar.Layout (Reader.boardLines text) rows rest)
    (hrows : Grammar.Flawless rows) :
    Puzzle.parse text = Puzzle.ofDescription ⟨Grammar.givens rows, Grammar.tokens rest⟩ := by
  rw [Puzzle.parse, Grammar.read_flawless hlayout hrows]

/-- A text that is accepted has its givens fixed and its names eliminated. -/
theorem Puzzle.parse_fixes (h : Grammar.Accepts (Reader.boardLines text) rows rest) :
    ∃ m, Puzzle.parse text = .ok ⟨m⟩ ∧ Fixes m (Grammar.givens rows) (Grammar.tokens rest) := by
  have hheight := h.layout.length_rows
  obtain ⟨m, hok, hfixes⟩ := exists_ofDescription
    (d := ⟨Grammar.givens rows, Grammar.tokens rest⟩)
    (fun p hp => Grammar.onBoard_givens hheight h.flawless.width hp)
    (pairwise_apart_givens hheight h.flawless) fun s hs => mem_candidateNames.mp (h.known s hs)
  exact ⟨m, (Puzzle.parse_flawless h.layout h.flawless).trans hok, hfixes⟩

theorem Puzzle.parse_accepts (h : Grammar.Accepts (Reader.boardLines text) rows rest) :
    ∃ p, Puzzle.parse text = .ok p ∧ p.Shows (Grammar.givens rows) (Grammar.tokens rest) := by
  obtain ⟨m, hok, hfixes⟩ := Puzzle.parse_fixes h
  exact ⟨⟨m⟩, hok, hfixes.shows (pairwise_apart_givens h.layout.length_rows h.flawless)⟩

theorem Puzzle.parse_rejects {e : ParseError} (h : Grammar.Rejects (Reader.boardLines text) e) :
    Puzzle.parse text = .error e := by
  cases h with
  | tooShort hshort => rw [Puzzle.parse, Grammar.read_tooShort hshort]
  | fault hlayout hfault =>
    rw [Puzzle.parse, Grammar.read_layout hlayout, hfault]
    rfl
  | @unknown rows rest s hlayout hrows hword =>
    have hheight := hlayout.length_rows
    obtain ⟨m, hfixes, hok⟩ := ofDescription_givens
      (d := ⟨Grammar.givens rows, Grammar.tokens rest⟩)
      (fun p hp => Grammar.onBoard_givens hheight hrows.width hp)
      (pairwise_apart_givens hheight hrows)
    rw [Puzzle.parse_flawless hlayout hrows, hok, hfixes.eliminateAll_error hword]
    rfl

/-- A text is a puzzle just when the grammar accepts it, and then it is the puzzle with its givens
and without what it eliminates. Any other text has the error that the grammar gives it. -/
theorem Puzzle.parse_exact (text : String) :
    ((∃ p, Puzzle.parse text = .ok p) ↔
        ∃ rows rest, Grammar.Accepts (Reader.boardLines text) rows rest) ∧
      (∀ rows rest, Grammar.Accepts (Reader.boardLines text) rows rest →
        ∃ p, Puzzle.parse text = .ok p ∧ p.Shows (Grammar.givens rows) (Grammar.tokens rest)) ∧
      ∀ e, Puzzle.parse text = .error e ↔ Grammar.Rejects (Reader.boardLines text) e := by
  have hverdict := Grammar.accepts_or_rejects (Reader.boardLines text)
  refine ⟨⟨fun h => ?_, fun h => ?_⟩, fun rows rest h => Puzzle.parse_accepts h,
    fun e => ⟨fun h => ?_, Puzzle.parse_rejects⟩⟩
  · obtain ⟨p, hp⟩ := h
    refine hverdict.resolve_right fun hrejects => ?_
    obtain ⟨e, he⟩ := hrejects
    cases hp.symm.trans (Puzzle.parse_rejects he)
  · obtain ⟨rows, rest, haccepts⟩ := h
    obtain ⟨p, hp, -⟩ := Puzzle.parse_accepts haccepts
    exact ⟨p, hp⟩
  · rcases hverdict with ⟨rows, rest, haccepts⟩ | ⟨e', he'⟩
    · obtain ⟨p, hp, -⟩ := Puzzle.parse_accepts haccepts
      cases h.symm.trans hp
    · cases h.symm.trans (Puzzle.parse_rejects he')
      exact he'

end Parsing

end ExactCover.Sudoku
