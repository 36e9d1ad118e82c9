/-
ExactCover.Proofs.Sudoku.Solutions — a puzzle has the solutions that its text asks for.

A matrix is `Playable` if it came from the empty board by fixing and eliminating
candidates: it is coherent, and its full solutions are among those of the empty board.
Every choice in it covers four constraints, so a search ends well within the default
ceilings (`runsOut`), and what it finds are different grids, those whose
placements are full solutions (`Playable.nodup_grids`, `Playable.mem_grids`). Counting
and listing them answers accordingly.

The matrix of a puzzle that is read from a text is playable, and its grids are those
that `Grid.Solves` demands of the text (`parse_playable`): each given asks for its
candidate and each name after the board asks for the absence of one that is not given.
-/
import Mathlib.Data.Set.Card
import ExactCover.Proofs.Counting
import ExactCover.Proofs.Sudoku.Grids
import ExactCover.Proofs.Sudoku.Reading
import ExactCover.Proofs.Sudoku.Setup

namespace ExactCover.Sudoku

/-- A matrix of the board in which nothing but a solution of the empty board is a solution. -/
structure Playable (m : Matrix Placement) : Prop where
  coherent : m.Coherent
  accounted : m.Accounted
  board_eq : m.board = board.board
  fullSolution : ∀ F, m.FullSolution F → board.FullSolution F

/-- The grids of the solutions that a search finds, in their order. -/
def grids (m : Matrix Placement) : List Grid := (Search.found m).map (Puzzle.gridOf ⟨m⟩)

/-! ## Searching -/

section Searching

variable {m : Matrix Placement}

/-- Every choice covers four constraints. -/
theorem activeConstraintCount_chosen_add (hm : m.Coherent) (hb : m.board = board.board)
    {c : ConstraintId} {x : CellId} (hc : c ∈ m.activeConstraints) (hx : x ∈ m.column c) :
    (Search.chosen m x).activeConstraintCount + 4 ≤ m.activeConstraintCount := by
  obtain ⟨-, ha, -⟩ := Search.row_facts hm hc hx
  have hr := hm.hasCandidate ha
  have hn := hm.narrows_place ha
  have hk := Search.coherent_chosen hm ha
  have hmem := fun d => hn.mem_activeConstraints hm (hm.place ha) (c := d)
  have hrow : ((m.row (m.candidateOf x)).map m.constraintOf).length = 4 := by
    rw [List.length_map, (encodes_of_board hb).length_row hm.laid hr]
  rw [hk.activeConstraintCount_eq, hm.activeConstraintCount_eq, ← hrow, ← List.length_append]
  -- what is left and what the choice covers are separate parts of what was active
  have hnodup : ((Search.chosen m x).activeConstraints ++
      (m.row (m.candidateOf x)).map m.constraintOf).Nodup := by
    refine List.nodup_append'.mpr ⟨hk.activeConstraints_ascending.imp Nat.ne_of_lt,
      (hm.laid.row_ascending _ hr).imp Nat.ne_of_lt, fun d hd hrow => ?_⟩
    exact ((hmem d).mp hd).2 (Matrix.hits_iff_mem_map.mpr hrow)
  refine (List.subperm_of_subset hnodup fun d hd => ?_).length_le
  rcases List.mem_append.mp hd with hd | hd
  · exact ((hmem d).mp hd).1
  · exact ((encodes_of_board hb).primary).mem_activeConstraints hm ha
      (Matrix.hits_iff_mem_map.mpr hd)

/-- What a choice leaves is the board with four constraints less. -/
theorem chosen_of_board (hm : m.Coherent) (hb : m.board = board.board) {c : ConstraintId}
    {x : CellId} (hc : c ∈ m.activeConstraints) (hx : x ∈ m.column c) :
    ((Search.chosen m x).Coherent ∧ (Search.chosen m x).board = board.board) ∧
      (Search.chosen m x).activeConstraintCount + 4 ≤ m.activeConstraintCount := by
  obtain ⟨-, ha, -⟩ := Search.row_facts hm hc hx
  have hboard : (Search.chosen m x).board = m.board := (hm.narrows_place ha).board
  exact ⟨⟨Search.coherent_chosen hm ha, hboard.trans hb⟩,
    activeConstraintCount_chosen_add hm hb hc hx⟩

/-- A search of the board does not get near the default ceilings. -/
theorem runsOut (hm : m.Coherent) (hb : m.board = board.board) : Search.RunsOut m := by
  intro limit
  have hconstraints := hm.activeConstraintCount_le
  have hcandidates := hm.activeCandidateCount_le
  rw [(encodes_of_board hb).constraintCount] at hconstraints
  rw [(encodes_of_board hb).candidateCount] at hcandidates
  have hdepth : (SearchLimits.solutions limit).maxDepth = 150 := rfl
  have hbranching : (SearchLimits.solutions limit).maxBranching = 1000 := rfl
  rcases Search.visits_ending (Q := fun n => n.Coherent ∧ n.board = board.board)
    (.solutions limit) (SearchLimits.solutions limit).maxDepth 0 (fun _ hn => hn.1)
    (fun _ _ _ hn hc hx => chosen_of_board hn.1 hn.2 hc hx) ⟨hm, hb⟩ with
      hend | ⟨-, hdeep⟩ | ⟨deep, degree, -, hwide, hle⟩
  · exact hend
  · omega
  · omega

namespace Playable

variable (h : Playable m)
include h

theorem encodes : Encodes m := encodes_of_board h.board_eq

theorem constraintCount_pos : 0 < m.constraintCount := by
  rw [h.encodes.constraintCount]
  decide

/-- The grid of a solution has just its placements. -/
theorem numbers_gridOf {rs : List CandidateId} (hrs : m.FullSolution rs.toFinset) :
    (Puzzle.gridOf ⟨m⟩ rs).numbers = rs.toFinset := by
  have hfull := h.fullSolution _ hrs
  have hpayload : rs.filterMap m.payload = rs.map placementAt := by
    rw [← List.filterMap_eq_map]
    refine List.filterMap_congr fun r hr => h.encodes.payload r ?_
    have hbounds := (fullSolution_board.mp hfull).1 r (List.mem_toFinset.mpr hr)
    exact (h.encodes.hasCandidate r).mpr hbounds
  rw [Puzzle.gridOf, hpayload, numbers_ofPlacements hfull]

theorem valid_of_fullSolution {g : Grid} (hg : m.FullSolution g.numbers) : g.Valid :=
  fullSolution_numbers.mp (h.fullSolution _ hg)

/-- A grid is determined by its numbers if these are a solution. -/
theorem eq_of_numbers {f g : Grid} (hf : m.FullSolution f.numbers) (heq : f.numbers = g.numbers) :
    f = g := (h.valid_of_fullSolution hf).eq_of_numbers heq

theorem fullSolution_of_mem_found {rs : List CandidateId} (hrs : rs ∈ Search.found m) :
    m.FullSolution rs.toFinset :=
  (Search.mem_found h.coherent _).mp (List.mem_map_of_mem hrs)

/-- A search finds the grids whose placements are solutions. -/
theorem mem_grids {g : Grid} : g ∈ grids m ↔ m.FullSolution g.numbers := by
  rw [grids, List.mem_map]
  constructor
  · rintro ⟨rs, hrs, rfl⟩
    have hfull := h.fullSolution_of_mem_found hrs
    rwa [h.numbers_gridOf hfull]
  · intro hg
    obtain ⟨rs, hrs, heq⟩ := List.mem_map.mp ((Search.mem_found h.coherent _).mpr hg)
    have hnumbers := (h.numbers_gridOf (h.fullSolution_of_mem_found hrs)).trans heq
    exact ⟨rs, hrs, (h.eq_of_numbers hg hnumbers.symm).symm⟩

/-- It finds none of them twice. -/
theorem nodup_grids : (grids m).Nodup := by
  have hnumbers : (grids m).map Grid.numbers = (Search.found m).map List.toFinset := by
    rw [grids, List.map_map]
    exact List.map_congr_left fun rs hrs => h.numbers_gridOf (h.fullSolution_of_mem_found hrs)
  refine List.Nodup.of_map Grid.numbers ?_
  rw [hnumbers]
  exact Search.nodup_found h.coherent h.accounted

/-- One grid is found when its placements are the only solution. -/
theorem grids_eq_singleton_iff {g : Grid} :
    grids m = [g] ↔ ∀ F, m.FullSolution F ↔ F = g.numbers := by
  rw [← List.perm_singleton, List.perm_ext_iff_of_nodup h.nodup_grids (List.nodup_singleton g)]
  simp only [h.mem_grids, List.mem_singleton]
  constructor
  · intro hg F
    constructor
    · intro hF
      obtain ⟨rs, hrs, rfl⟩ := List.mem_map.mp ((Search.mem_found h.coherent F).mpr hF)
      have hnumbers := h.numbers_gridOf hF
      rw [← (hg _).mp (hnumbers.symm ▸ hF), hnumbers]
    · rintro rfl
      exact (hg g).mpr rfl
  · intro hF f
    constructor
    · exact fun hf => h.eq_of_numbers hf ((hF _).mp hf)
    · rintro rfl
      exact (hF _).mpr rfl

theorem countAtMost_eq (limit : Nat) :
    Puzzle.countAtMost ⟨m⟩ limit = (⟨m⟩, .ok (min limit (grids m).length)) := by
  rw [Puzzle.countAtMost, Search.countSolutions_eq h.coherent h.constraintCount_pos
    (runsOut h.coherent h.board_eq), grids, List.length_map]

theorem solveOne_eq : Puzzle.solveOne ⟨m⟩ = (⟨m⟩, .ok (grids m).head?) := by
  rw [Puzzle.solveOne, Search.solveOne_eq h.coherent h.constraintCount_pos
    (runsOut h.coherent h.board_eq), grids, List.head?_map]
  rfl

theorem solveUnique_eq : Puzzle.solveUnique ⟨m⟩ = (⟨m⟩, .ok (match grids m with
    | [g] => some g
    | _ => none)) := by
  rw [Puzzle.solveUnique, Search.solveAtMost_eq h.coherent h.constraintCount_pos
    (runsOut h.coherent h.board_eq), grids]
  match Search.found m with
  | [] => rfl
  | [_] => rfl
  | _ :: _ :: _ => rfl

theorem solveUnique_some_iff (g : Grid) :
    (Puzzle.solveUnique ⟨m⟩).2 = .ok (some g) ↔ grids m = [g] := by
  rw [h.solveUnique_eq]
  match grids m with
  | [] => simp
  | [_] => simp
  | _ :: _ :: _ => simp

theorem solveUnique_none (hne : ∀ g, grids m ≠ [g]) :
    Puzzle.solveUnique ⟨m⟩ = (⟨m⟩, .ok none) := by
  rw [h.solveUnique_eq]
  match hgrids : grids m with
  | [] => rfl
  | [g] => exact absurd hgrids (hne g)
  | _ :: _ :: _ => rfl

end Playable

end Searching

/-! ## The puzzle of a text -/

/-- The grid is filled as it should be, has what the text gives, and has nothing that it rejects
and does not give. -/
structure Grid.Solves (text : String) (g : Grid) : Prop where
  valid : g.Valid
  given : ∀ p, Reader.Gives text p → g.Has p
  rejected : ∀ p, g.Has p → Reader.Rejects text p → Reader.Gives text p

/-- What a valid grid has can be given together. -/
theorem Grid.Valid.apart {g : Grid} (h : g.Valid) {p q : Placement} (hp : g.Has p) (hq : g.Has q)
    (hne : p ≠ q) : p.Apart q := by
  intro c hpc hqc
  obtain ⟨hpos, hle⟩ := hp.1.constraintNumbers_bounds c hpc
  exact hne ((Grid.valid_iff.mp h c hpos hle).unique ⟨hp, hpc⟩ ⟨hq, hqc⟩)

/-- The solutions that a text asks for. -/
def solutions (text : String) : Set Grid := {g | g.Solves text}

section Parsing

/-- The matrix of a puzzle that is read is playable, and its solutions are those that the text asks
for. -/
theorem parse_playable {text : String} {p : Puzzle} (h : Puzzle.parse text = .ok p) :
    Playable p.matrix ∧ ∀ g : Grid, p.matrix.FullSolution g.numbers ↔ g.Solves text := by
  unfold Puzzle.parse at h
  split at h
  · cases h
  next d hread =>
  obtain ⟨hgiven, hrejected⟩ := Reader.read_ok hread
  have honBoard : ∀ q ∈ d.givens, q.OnBoard := fun q hq => ((hgiven q).mp hq).1
  obtain ⟨fixed, out, hasks, hfixed, hout⟩ := asks_ofDescription h honBoard
  refine ⟨⟨hasks.prepared.coherent, hasks.accounted, hasks.board,
    fun F hF => ((hasks.fullSolution F).mp hF).1⟩, fun g => ?_⟩
  have hisGiven : ∀ q : Placement, q.OnBoard → (q.number ∈ fixed ↔ Reader.Gives text q) := by
    intro q hq
    rw [hfixed, ← hgiven, List.mem_map]
    constructor
    · rintro ⟨p, hp, heq⟩
      rwa [← number_injective (honBoard p hp) hq heq]
    · exact fun hq => ⟨q, hq, rfl⟩
  rw [hasks.fullSolution, fullSolution_numbers]
  constructor
  · intro h'
    obtain ⟨hvalid, hin, hnot⟩ := h'
    refine ⟨hvalid, fun q hq => ?_, fun q hq hreject => ?_⟩
    · exact (Grid.number_mem_numbers hq.1).mp (hin _ ((hisGiven q hq.1).mpr hq))
    · refine (hisGiven q hq.1).mp (hnot _ ?_ ((Grid.number_mem_numbers hq.1).mpr hq))
      rw [hout, hq.1.placementAt_number, hrejected]
      exact ⟨hq.1.number_bounds, hreject⟩
  · intro h'
    obtain ⟨hvalid, hin, hnot⟩ := h'
    refine ⟨hvalid, fun r hr => ?_, fun r hr hnumber => ?_⟩
    · obtain ⟨q, hq, rfl⟩ := List.mem_map.mp ((hfixed r).mp hr)
      exact (Grid.number_mem_numbers (honBoard q hq)).mpr (hin q ((hgiven q).mp hq))
    · rw [hout, hrejected] at hr
      obtain ⟨hbounds, hreject⟩ := hr
      have hhas := (Grid.mem_numbers.mp hnumber).2
      rw [← number_placementAt hbounds]
      exact (hisGiven _ hhas.1).mpr (hnot _ hhas hreject)

/-- The grids that a search of the puzzle finds are the solutions that the text asks for. -/
theorem mem_solutions {text : String} {p : Puzzle} (h : Puzzle.parse text = .ok p) {g : Grid} :
    g ∈ solutions text ↔ g ∈ grids p.matrix := by
  obtain ⟨hplayable, hsolves⟩ := parse_playable h
  rw [hplayable.mem_grids, hsolves]
  rfl

/-- The text asks for one solution if that is all that a search finds. -/
theorem solutions_eq_singleton_iff {text : String} {p : Puzzle} (h : Puzzle.parse text = .ok p)
    {g : Grid} : solutions text = {g} ↔ grids p.matrix = [g] := by
  obtain ⟨hplayable, -⟩ := parse_playable h
  rw [← List.perm_singleton,
    List.perm_ext_iff_of_nodup hplayable.nodup_grids (List.nodup_singleton g), Set.ext_iff]
  simp only [mem_solutions h, Set.mem_singleton_iff, List.mem_singleton]

/-- A puzzle that is read from a text has the solutions that the text asks for. There are finitely
many, and they are counted up to the limit; one of them is found if there is any; and one is found
to be the only one if it is. No answer changes the puzzle. -/
theorem Puzzle.solves_text {text : String} {p : Puzzle} (h : Puzzle.parse text = .ok p) :
    (solutions text).Finite ∧
      (∀ limit, p.countAtMost limit = (p, .ok (min limit (solutions text).ncard))) ∧
      ((solutions text).Nonempty → ∃ g ∈ solutions text, p.solveOne = (p, .ok (some g))) ∧
      (solutions text = ∅ → p.solveOne = (p, .ok none)) ∧
      (∀ g, p.solveUnique.2 = .ok (some g) ↔ solutions text = {g}) ∧
      ((∀ g, solutions text ≠ {g}) → p.solveUnique = (p, .ok none)) := by
  obtain ⟨hplayable, -⟩ := parse_playable h
  have hmem : ∀ g, g ∈ solutions text ↔ g ∈ grids p.matrix := fun g => mem_solutions h
  have hnodup := hplayable.nodup_grids
  have hset : solutions text = ↑(grids p.matrix).toFinset := by
    ext g
    rw [hmem, Finset.mem_coe, List.mem_toFinset]
  have hcard : (solutions text).ncard = (grids p.matrix).length := by
    rw [hset, Set.ncard_coe_finset, List.toFinset_card_of_nodup hnodup]
  refine ⟨hset ▸ Finset.finite_toSet _, fun limit => ?_, fun hsome => ?_, fun hnone => ?_,
    fun g => ?_, fun hmany => ?_⟩
  · rw [hcard]
    exact hplayable.countAtMost_eq limit
  · obtain ⟨f, hf⟩ := hsome
    have hlist := hplayable.solveOne_eq
    cases hgrids : grids p.matrix with
    | nil => exact absurd ((hmem f).mp hf) (by simp [hgrids])
    | cons g rest =>
      rw [hgrids] at hlist
      exact ⟨g, (hmem g).mpr (by simp [hgrids]), hlist⟩
  · have hlist := hplayable.solveOne_eq
    have hempty : grids p.matrix = [] :=
      List.eq_nil_iff_forall_not_mem.mpr fun g hg => by
        have hg := (hmem g).mpr hg
        rwa [hnone] at hg
    rwa [hempty] at hlist
  · rw [solutions_eq_singleton_iff h]
    exact hplayable.solveUnique_some_iff g
  · exact hplayable.solveUnique_none fun g hgrids =>
      hmany g ((solutions_eq_singleton_iff h).mpr hgrids)

end Parsing

/-! ## A puzzle without its last row

The rows of the grid are those before them moved on by three places, and by one more where a band
ends. The puzzle gives all of them but the last, and rejects one placement that it gives and
another one that it does not. -/

section Sample

/-- The digits of the grid. -/
def shiftedDigit (row col : Nat) : Nat := (row * 3 + row / 3 + col) % 9 + 1

def shiftedGrid : Grid := ⟨Vector.ofFn fun i => shiftedDigit (i / 9) (i % 9)⟩

def shiftedText : String := "\n".intercalate
  ["123456789", "456789123", "789123456", "234567891", "567891234", "891234567", "345678912",
    "678912345", ".........", "r0c0d1 r8c0d1"]

def shiftedGivens : List Placement :=
  (List.range 8).flatMap fun row => (List.range 9).map fun col => ⟨row, col, shiftedDigit row col⟩

theorem has_shiftedGrid {p : Placement} : shiftedGrid.Has p ↔
    p.row < 9 ∧ p.col < 9 ∧ p.digit = shiftedDigit p.row p.col := by
  have hdigit : ∀ row col, 1 ≤ shiftedDigit row col ∧ shiftedDigit row col ≤ 9 := by
    intro row col
    unfold shiftedDigit
    omega
  have hcells : ∀ row < 9, ∀ col < 9,
      shiftedGrid.cells[Grid.place row col]? = some (shiftedDigit row col) := by decide +kernel
  constructor
  · intro h
    obtain ⟨hrow, hcol, -, -⟩ := h.1
    have hcell := (Grid.has_iff h.1).mp h
    rw [hcells p.row hrow p.col hcol] at hcell
    exact ⟨hrow, hcol, (Option.some.inj hcell).symm⟩
  · rintro ⟨hrow, hcol, heq⟩
    have hbounds := hdigit p.row p.col
    rw [← heq] at hbounds
    refine (Grid.has_iff ⟨hrow, hcol, hbounds.1, hbounds.2⟩).mpr ?_
    rw [hcells p.row hrow p.col hcol, heq]

theorem valid_shiftedGrid : shiftedGrid.Valid := by
  have hrows : ∀ row < 9, ∀ digit < 9, ∃ col < 9, digit + 1 = shiftedDigit row col ∧
      ∀ other < 9, digit + 1 = shiftedDigit row other → other = col := by decide +kernel
  have hcolumns : ∀ col < 9, ∀ digit < 9, ∃ row < 9, digit + 1 = shiftedDigit row col ∧
      ∀ other < 9, digit + 1 = shiftedDigit other col → other = row := by decide +kernel
  have hboxes : ∀ band < 3, ∀ stack < 3, ∀ digit < 9, ∃ x < 3, ∃ y < 3,
      digit + 1 = shiftedDigit (band * 3 + x) (stack * 3 + y) := by decide +kernel
  have hboxed : ∀ band stack x y, x < 3 → shiftedDigit (band * 3 + x) (stack * 3 + y) =
      (x * 3 + y + (band + stack * 3)) % 9 + 1 := by
    intro band stack x y hx
    unfold shiftedDigit
    omega
  refine ⟨fun row hrow col hcol => ?_, fun row hrow digit h1 h9 => ?_,
    fun col hcol digit h1 h9 => ?_, fun band hband stack hstack digit h1 h9 => ?_⟩
  · exact ⟨shiftedDigit row col, has_shiftedGrid.mpr ⟨hrow, hcol, rfl⟩⟩
  all_goals
    obtain ⟨d, rfl⟩ : ∃ d, digit = d + 1 := ⟨digit - 1, (Nat.sub_add_cancel h1).symm⟩
    simp only [has_shiftedGrid]
  · obtain ⟨col, hcol, hdigit, hone⟩ := hrows row hrow d h9
    exact ⟨col, ⟨hrow, hcol, hdigit⟩, fun other hother => hone other hother.2.1 hother.2.2⟩
  · obtain ⟨row, hrow, hdigit, hone⟩ := hcolumns col hcol d h9
    exact ⟨row, ⟨hrow, hcol, hdigit⟩, fun other hother => hone other hother.1 hother.2.2⟩
  · obtain ⟨x, hx, y, hy, hdigit⟩ := hboxes band hband stack hstack d h9
    refine ⟨(band * 3 + x, stack * 3 + y), ⟨by omega, by omega, by omega, by omega, hdigit⟩, ?_⟩
    rintro ⟨row, col⟩ ⟨hband', hstack', hrow, hcol, hdigit'⟩
    obtain ⟨x', hx', rfl⟩ : ∃ x' < 3, row = band * 3 + x' := ⟨row % 3, by omega⟩
    obtain ⟨y', hy', rfl⟩ : ∃ y' < 3, col = stack * 3 + y' := ⟨col % 3, by omega⟩
    rw [hdigit, hboxed band stack x y hx, hboxed band stack x' y' hx'] at hdigit'
    simp only [Prod.mk.injEq]
    omega

theorem read_shiftedText :
    Reader.read shiftedText = .ok ⟨shiftedGivens, ["r0c0d1", "r8c0d1"]⟩ := by decide +kernel

theorem mem_shiftedGivens {p : Placement} :
    p ∈ shiftedGivens ↔ p.row < 8 ∧ shiftedGrid.Has p := by
  rw [has_shiftedGrid]
  obtain ⟨row, col, digit⟩ := p
  simp only [shiftedGivens, List.mem_flatMap, List.mem_map, List.mem_range, Placement.mk.injEq]
  constructor
  · rintro ⟨row, hrow, col, hcol, rfl, rfl, rfl⟩
    exact ⟨hrow, by omega, hcol, rfl⟩
  · rintro ⟨hrow, -, hcol, rfl⟩
    exact ⟨row, hrow, col, hcol, rfl, rfl, rfl⟩

/-- The puzzle is accepted. -/
theorem exists_parse_shiftedText : ∃ p, Puzzle.parse shiftedText = .ok p := by
  have hgivens : ∀ p ∈ shiftedGivens, p.OnBoard := fun p hp => (mem_shiftedGivens.mp hp).2.1
  have hknown : ∀ name ∈ ["r0c0d1", "r8c0d1"], ∃ p : Placement, p.OnBoard ∧ p.name = name := by
    simp only [List.forall_mem_cons, List.not_mem_nil, false_imp_iff, implies_true, and_true]
    exact ⟨⟨⟨0, 0, 1⟩, by decide, by decide +kernel⟩, ⟨8, 0, 1⟩, by decide, by decide +kernel⟩
  have hnodup : shiftedGivens.Nodup := by decide +kernel
  have hapart : shiftedGivens.Pairwise Placement.Apart :=
    hnodup.imp_of_mem fun hp hq hne => valid_shiftedGrid.apart (mem_shiftedGivens.mp hp).2
      (mem_shiftedGivens.mp hq).2 hne
  obtain ⟨m, hm, -⟩ := exists_ofDescription (d := ⟨shiftedGivens, ["r0c0d1", "r8c0d1"]⟩) hgivens
    hapart hknown
  refine ⟨⟨m⟩, ?_⟩
  rw [Puzzle.parse, read_shiftedText]
  exact hm

/-- The puzzle has one solution: in each column the digit that is missing goes to the last row. -/
theorem solutions_shiftedText : solutions shiftedText = {shiftedGrid} := by
  obtain ⟨hgiven, hrejected⟩ := Reader.read_ok read_shiftedText
  have hvalid := valid_shiftedGrid
  ext g
  constructor
  · intro hg
    have habove : ∀ q, shiftedGrid.Has q → q.row < 8 → g.Has q := fun q hq hrow =>
      hg.given q ((hgiven q).mp (mem_shiftedGivens.mpr ⟨hrow, hq⟩))
    refine (hvalid.ext fun p hp => ?_).symm
    obtain ⟨hrow, hcol, hpos, hdigit⟩ := hp.1
    obtain ⟨row, hhas, -⟩ := hg.valid.column p.col hcol p.digit hpos hdigit
    have hhas : g.Has ⟨row, p.col, p.digit⟩ := hhas
    -- where the column has the digit in `g`, it has it in the shifted grid too
    have hsame : row = p.row := by
      by_cases hlast : row < 8
      · have hshifted := has_shiftedGrid (p := ⟨row, p.col, shiftedDigit row p.col⟩)
        have hcell := habove _ (hshifted.mpr ⟨hhas.1.row, hcol, rfl⟩) hlast
        have heq := hhas.eq_of_cell hcell rfl rfl
        have hshift := hshifted.mpr ⟨hhas.1.row, hcol, rfl⟩
        rw [← heq] at hshift
        exact (hvalid.column p.col hcol p.digit hpos hdigit).unique hshift hp
      · by_cases habove' : p.row < 8
        · exact (hg.valid.column p.col hcol p.digit hpos hdigit).unique hhas (habove p hp habove')
        · have hrow' := hhas.1.row
          dsimp only at hrow'
          omega
    rwa [hsame] at hhas
  · rintro rfl
    refine ⟨hvalid, fun p hp => ?_, fun p hp hreject => ?_⟩
    · exact (mem_shiftedGivens.mp ((hgiven p).mpr hp)).2
    · refine (hgiven p).mp (mem_shiftedGivens.mpr ⟨?_, hp⟩)
      have hname := (hrejected p).mpr hreject
      simp only [List.mem_cons, List.not_mem_nil, or_false] at hname
      rcases hname with hname | hname
      · have hcorner : Placement.name ⟨0, 0, 1⟩ = "r0c0d1" := by decide +kernel
        rw [placementName_injective hp.1 (by decide) (hname.trans hcorner.symm)]
        decide
      · have hcorner : Placement.name ⟨8, 0, 1⟩ = "r8c0d1" := by decide +kernel
        have hlast := placementName_injective hp.1 (by decide) (hname.trans hcorner.symm)
        rw [hlast, has_shiftedGrid] at hp
        exact absurd hp (by decide)

theorem Puzzle.solves_shiftedText : ∃ p, Puzzle.parse shiftedText = .ok p ∧
    (∀ limit, p.countAtMost limit = (p, .ok (min limit 1))) ∧
    p.solveOne = (p, .ok (some shiftedGrid)) ∧ p.solveUnique.2 = .ok (some shiftedGrid) := by
  obtain ⟨p, hp⟩ := exists_parse_shiftedText
  obtain ⟨-, hcount, hone, -, hunique, -⟩ := Puzzle.solves_text hp
  rw [solutions_shiftedText] at hcount hone hunique
  rw [Set.ncard_singleton] at hcount
  obtain ⟨g, rfl, hsolve⟩ := hone ⟨shiftedGrid, rfl⟩
  exact ⟨p, hp, hcount, hsolve, (hunique shiftedGrid).mpr rfl⟩

end Sample

end ExactCover.Sudoku
