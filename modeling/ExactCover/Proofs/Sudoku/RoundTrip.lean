/-
ExactCover.Proofs.Sudoku.RoundTrip — a grid is read back from its text.

A grid is `Consistent` if no digit is in a row, a column or a box twice; cells may be
empty. Its `placements` are the digits with their cells, row by row, and they determine it
(`ofPlacements_placements`). Both texts of a grid print the characters of its cells, on
one line or on nine, so the rows that are read have just these placements as givens, and
they are flawless (`givens_rows`, `Consistent.flawless`). Each given is fixed, and what a
puzzle shows as its grid is what it has fixed (`Fixes.grid_eq`).

The grid of a puzzle that is read from a text is consistent, because its givens are apart
from each other. So it is read back from its own text, and that with the same hints, since
these are set up from the same givens and no elimination takes one away
(`hints_ofDescription`).
-/
import ExactCover.Proofs.Sudoku.Layouts
import ExactCover.Proofs.Sudoku.Parsing
import ExactCover.Proofs.Sudoku.Solutions

namespace ExactCover.Sudoku

/-! ## Placements of a grid -/

/-- Placements in the order of their cells are determined by which they are. -/
theorem eq_of_before {ps qs : List Placement} (hps : ps.Pairwise fun p q => p.Before q.row q.col)
    (hqs : qs.Pairwise fun p q => p.Before q.row q.col) (h : ∀ p, p ∈ ps ↔ p ∈ qs) : ps = qs := by
  have hirrefl : Std.Irrefl fun p q : Placement => p.Before q.row q.col :=
    ⟨fun p hp => by unfold Placement.Before at hp; omega⟩
  have hantisymm : Std.Antisymm fun p q : Placement => p.Before q.row q.col :=
    ⟨fun p q hp hq => by unfold Placement.Before at hp hq; omega⟩
  exact hps.eq_of_mem_iff hqs h

namespace Grid

variable {f g : Grid} {p : Placement} {ps : List Placement}

/-- Every entry is a digit or 0, and no digit is twice in a row, a column or a box. -/
structure Consistent (g : Grid) : Prop where
  entry : ∀ digit ∈ g.cells, digit ≤ 9
  once : ∀ p q, g.Has p → g.Has q → p ≠ q → p.digit = q.digit →
    p.row ≠ q.row ∧ p.col ≠ q.col ∧ p.box ≠ q.box

/-- The digits of the grid with their cells, row by row. -/
def placements (g : Grid) : List Placement :=
  g.cells.toList.zipIdx.filterMap fun x => if x.1 = 0 then none else some ⟨x.2 / 9, x.2 % 9, x.1⟩

/-- Where there is a digit the grid has it. -/
theorem has_cell_iff (hentry : ∀ digit ∈ g.cells, digit ≤ 9) {i digit : Nat} (hi : i < 81) :
    g.Has ⟨i / 9, i % 9, digit⟩ ↔ digit ≠ 0 ∧ g.cells[i] = digit := by
  have hplace : place (i / 9) (i % 9) = i := Nat.div_add_mod' i 9
  constructor
  · intro h
    have hcell := (has_iff h.1).mp h
    rw [hplace, Vector.getElem?_eq_getElem hi] at hcell
    exact ⟨Nat.ne_of_gt h.1.digit_pos, Option.some.inj hcell⟩
  · rintro ⟨hzero, rfl⟩
    have hboard : Placement.OnBoard ⟨i / 9, i % 9, g.cells[i]⟩ :=
      ⟨Nat.div_lt_of_lt_mul hi, Nat.mod_lt _ (by decide), Nat.pos_of_ne_zero hzero,
        hentry _ (Vector.getElem_mem hi)⟩
    rw [has_iff hboard, hplace, Vector.getElem?_eq_getElem hi]

theorem mem_placements (hentry : ∀ digit ∈ g.cells, digit ≤ 9) : p ∈ g.placements ↔ g.Has p := by
  simp only [placements, List.mem_filterMap, Prod.exists, List.mem_zipIdx_iff_getElem?,
    Vector.getElem?_toList, ite_eq_iff, reduceCtorEq, and_false, false_or, Option.some.injEq]
  constructor
  · rintro ⟨digit, i, hcell, hzero, rfl⟩
    obtain ⟨hi, heq⟩ := Vector.getElem?_eq_some_iff.mp hcell
    exact (has_cell_iff hentry hi).mpr ⟨hzero, heq⟩
  · intro hp
    have hcell := (has_iff hp.1).mp hp
    obtain ⟨-, hcol, hpos, -⟩ := hp.1
    have hdiv : place p.row p.col / 9 = p.row := by
      unfold place
      omega
    have hmod : place p.row p.col % 9 = p.col := by
      unfold place
      omega
    exact ⟨p.digit, _, hcell, Nat.ne_of_gt hpos, by rw [hdiv, hmod]⟩

theorem placements_ascending (g : Grid) :
    g.placements.Pairwise fun p q => p.Before q.row q.col := by
  refine List.pairwise_filterMap.mpr ((Grammar.zipIdx_ascending _ 0).imp ?_)
  intro x y hlt p hp q hq
  simp only [ite_eq_iff, reduceCtorEq, and_false, false_or, Option.some.injEq] at hp hq
  obtain ⟨-, rfl⟩ := hp
  obtain ⟨-, rfl⟩ := hq
  simp only [Placement.Before]
  omega

/-- There are as many placements as cells if no cell is empty. -/
theorem length_placements_iff : g.placements.length = 81 ↔ g.isComplete = true := by
  have hall := List.countP_eq_length (l := g.cells.toList.zipIdx)
    (p := fun x => (if x.1 = 0 then none else some (Placement.mk (x.2 / 9) (x.2 % 9) x.1)).isSome)
  rw [List.length_zipIdx, Vector.length_toList] at hall
  rw [placements, List.length_filterMap_eq_countP, hall, isComplete, Vector.all_eq_true']
  simp only [bne_iff_ne]
  constructor
  · intro h digit hdigit
    obtain ⟨i, hi⟩ := List.getElem?_of_mem (Vector.mem_toList_iff.mpr hdigit)
    have hsome := h (digit, i) (List.mem_zipIdx_iff_getElem?.mpr hi)
    rintro rfl
    cases hsome
  · intro h x hx
    have hcell := List.mem_zipIdx_iff_getElem?.mp hx
    rw [if_neg (h x.1 (Vector.mem_toList_iff.mp (List.mem_of_getElem? hcell)))]
    rfl

/-- Grids of digits and empty cells are told apart by what they have. -/
theorem eq_of_has (hf : ∀ digit ∈ f.cells, digit ≤ 9) (hg : ∀ digit ∈ g.cells, digit ≤ 9)
    (h : ∀ p, f.Has p ↔ g.Has p) : f = g := by
  have hcells : f.cells = g.cells := by
    refine Vector.ext fun i hi => ?_
    have hsame : ∀ digit, digit ≠ 0 ∧ f.cells[i] = digit ↔ digit ≠ 0 ∧ g.cells[i] = digit :=
      fun digit => by rw [← has_cell_iff hf hi, ← has_cell_iff hg hi, h]
    by_cases hzero : f.cells[i] = 0
    · by_contra hne
      exact hne ((hsame _).mpr ⟨fun hempty => hne (hzero.trans hempty.symm), rfl⟩).2
    · exact ((hsame _).mp ⟨hzero, rfl⟩).2.symm
  exact congrArg Grid.mk hcells

/-- The entries of a grid of placements are digits or 0. -/
theorem entry_ofPlacements (hps : ∀ p ∈ ps, p.OnBoard) :
    ∀ digit ∈ (ofPlacements ps).cells, digit ≤ 9 := by
  have hfold : ∀ g : Grid, (∀ digit ∈ g.cells, digit ≤ 9) →
      ∀ digit ∈ (ps.foldl put g).cells, digit ≤ 9 := by
    induction ps with
    | nil => exact fun _ hg => hg
    | cons p ps ih =>
      obtain ⟨hp, hrest⟩ := List.forall_mem_cons.mp hps
      refine fun g hg => ih hrest (g.put p) fun digit hdigit => ?_
      obtain ⟨i, hi, rfl⟩ := Vector.mem_iff_getElem.mp hdigit
      simp only [put, Vector.getElem_setIfInBounds hi]
      split
      · exact hp.digit
      · exact hg _ (Vector.getElem_mem hi)
  refine hfold Grid.empty fun digit hdigit => ?_
  rw [empty, Vector.mem_replicate] at hdigit
  omega

/-- A grid is made of its placements. -/
theorem ofPlacements_placements (hentry : ∀ digit ∈ g.cells, digit ≤ 9) :
    ofPlacements g.placements = g := by
  have hhas : ∀ p ∈ g.placements, g.Has p := fun p hp => (mem_placements hentry).mp hp
  have hboard : ∀ p ∈ g.placements, p.OnBoard := fun p hp => (hhas p hp).1
  refine eq_of_has (entry_ofPlacements hboard) hentry fun p => ?_
  rw [has_ofPlacements hboard fun p hp q hq => (hhas p hp).eq_of_cell (hhas q hq),
    mem_placements hentry]

/-- Placements that are apart from each other are the placements of a consistent grid. -/
theorem consistent_ofPlacements (hps : ∀ p ∈ ps, p.OnBoard) (hapart : ps.Pairwise Placement.Apart) :
    (ofPlacements ps).Consistent ∧ ∀ p, (ofPlacements ps).Has p ↔ p ∈ ps := by
  have hsymm : Std.Symm Placement.Apart := ⟨fun _ _ => Placement.Apart.symm⟩
  have hmeets : ∀ p ∈ ps, ∀ q ∈ ps, p ≠ q → ¬ p.Meets q := fun p hp q hq hne =>
    ((hps p hp).apart_iff (hps q hq)).mp (hapart.forall hp hq hne)
  have hagree : Agree ps := fun p hp q hq hrow hcol => by
    by_contra hne
    exact hmeets p hp q hq hne (Or.inl ⟨hrow, hcol⟩)
  have hhas : ∀ p, (ofPlacements ps).Has p ↔ p ∈ ps := fun _ => has_ofPlacements hps hagree
  refine ⟨⟨entry_ofPlacements hps, fun p q hp hq hne hdigit => ?_⟩, hhas⟩
  have hnot := hmeets p ((hhas p).mp hp) q ((hhas q).mp hq) hne
  simp only [Placement.Meets, hdigit, and_true, not_or] at hnot
  exact hnot.2

end Grid

/-! ## Rows of a grid -/

/-- The entries of some rows are those of the line that they are parts of. -/
theorem getElem?_slices {cells : List Char} {row col : Nat} {entry : Char} :
    (∃ s, (slices cells)[row]? = some s ∧ s[col]? = some entry) ↔
      row < 9 ∧ col < 9 ∧ cells[row * 9 + col]? = some entry := by
  have hpart : ∀ row, ((cells.drop (row * 9)).take 9)[col]? =
      if col < 9 then cells[row * 9 + col]? else none := fun row => by
    rw [List.getElem?_take, List.getElem?_drop]
  simp only [slices, List.getElem?_map, Option.map_eq_some_iff, exists_exists_and_eq_and, hpart,
    ite_eq_iff, reduceCtorEq, and_false, or_false]
  constructor
  · rintro ⟨r, hr, hcol, hentry⟩
    obtain ⟨hrow, rfl⟩ := List.getElem?_eq_some_iff.mp hr
    rw [List.getElem_range] at hentry
    exact ⟨List.length_range (n := 9) ▸ hrow, hcol, hentry⟩
  · rintro ⟨hrow, hcol, hentry⟩
    exact ⟨row, List.getElem?_range hrow, hcol, hentry⟩

/-- Digits are written as digits, and all else as a point. -/
theorem cellChar_facts {digit : Nat} (hdigit : digit ≤ 9) :
    Text.isBlank (cellChar digit) = false ∧
      (cellChar digit = '.' ∨ ('1' ≤ cellChar digit ∧ cellChar digit ≤ '9')) ∧
      ∀ d ≤ 9, 1 ≤ d → (cellChar digit = Nat.digitChar d ↔ digit = d) := by
  have hall : ∀ digit ≤ 9, Text.isBlank (cellChar digit) = false ∧
      (cellChar digit = '.' ∨ ('1' ≤ cellChar digit ∧ cellChar digit ≤ '9')) ∧
      ∀ d ≤ 9, 1 ≤ d → (cellChar digit = Nat.digitChar d ↔ digit = d) := by decide
  exact hall digit hdigit

namespace Grid

variable {g : Grid} {p : Placement}

/-- The characters of the cells. -/
def chars (g : Grid) : List Char := g.cells.toList.map cellChar

theorem length_chars (g : Grid) : g.chars.length = 81 := by
  rw [chars, List.length_map, Vector.length_toList]

theorem not_blank_chars (hentry : ∀ digit ∈ g.cells, digit ≤ 9) :
    ∀ c ∈ g.chars, Text.isBlank c = false := by
  intro c hc
  obtain ⟨digit, hdigit, rfl⟩ := List.mem_map.mp hc
  exact (cellChar_facts (hentry digit (Vector.mem_toList_iff.mp hdigit))).1

theorem prints_line (g : Grid) : Prints g.line [g.chars] [] :=
  ⟨[], [g.chars], nofun, .cons ⟨[], [], nofun, nofun, by simp⟩ .nil, Or.inl rfl,
    by simp [line, chars]⟩

theorem prints_text (g : Grid) : Prints g.text (slices g.chars) [] := by
  have hrows : (List.range 9).map (String.toList ∘ g.rowText) = slices g.chars :=
    List.map_congr_left fun row _ => by
      simp [rowText, chars, List.map_take, List.map_drop, Nat.mul_comm]
  refine ⟨[], slices g.chars, nofun, List.forall₂_same.mpr fun s _ => ?_, Or.inl rfl, ?_⟩
  · exact ⟨[], [], nofun, nofun, by simp⟩
  · rw [text, String.toList_intercalate, List.map_map, hrows, List.nil_append, List.append_nil]
    rfl

/-- What is given in the rows is what the grid has. -/
theorem mem_givens_slices (hentry : ∀ digit ∈ g.cells, digit ≤ 9) :
    p ∈ Grammar.givens (slices g.chars) ↔ g.Has p := by
  constructor
  · intro hp
    obtain ⟨s, entry, hs, hentry', hplaced⟩ := Grammar.mem_givens.mp hp
    obtain ⟨hrow, hcol, hchar⟩ := getElem?_slices.mp ⟨s, hs, hentry'⟩
    obtain ⟨-, -, hpos, hle, rfl⟩ := Grammar.placement?_eq_some_iff.mp hplaced
    rw [chars, List.getElem?_map, Option.map_eq_some_iff] at hchar
    obtain ⟨digit, hdigit, hchar⟩ := hchar
    rw [Vector.getElem?_toList] at hdigit
    have heq := ((cellChar_facts (hentry digit (Vector.mem_of_getElem? hdigit))).2.2 p.digit hle
      hpos).mp hchar
    exact (has_iff ⟨hrow, hcol, hpos, hle⟩).mpr (heq ▸ hdigit)
  · intro hp
    obtain ⟨hrow, hcol, hpos, hle⟩ := hp.1
    have hchar : g.chars[p.row * 9 + p.col]? = some (cellChar p.digit) := by
      rw [chars, List.getElem?_map, Vector.getElem?_toList]
      exact congrArg (Option.map cellChar) ((has_iff hp.1).mp hp)
    obtain ⟨s, hs, hentry⟩ := getElem?_slices.mpr ⟨hrow, hcol, hchar⟩
    refine Grammar.mem_givens.mpr ⟨s, _, hs, hentry, ?_⟩
    exact Grammar.placement?_eq_some_iff.mpr
      ⟨rfl, rfl, hpos, hle, ((cellChar_facts hle).2.2 p.digit hle hpos).mpr rfl⟩

/-- The givens are the placements of the grid in their order. -/
theorem givens_slices (hentry : ∀ digit ∈ g.cells, digit ≤ 9) :
    Grammar.givens (slices g.chars) = g.placements :=
  eq_of_before (Grammar.givens_ascending _) g.placements_ascending fun _ =>
    (mem_givens_slices hentry).trans (mem_placements hentry).symm

namespace Consistent

/-- Nothing is wrong with the rows of a consistent grid. -/
theorem flawless (h : g.Consistent) : Grammar.Flawless (slices g.chars) := by
  refine ⟨length_slices g.length_chars, fun s hs c hc => ?_, fun p hp q hq => ?_⟩
  · obtain ⟨row, -, rfl⟩ := List.mem_map.mp hs
    obtain ⟨digit, hdigit, rfl⟩ := List.mem_map.mp (List.mem_of_mem_drop (List.mem_of_mem_take hc))
    exact (cellChar_facts (h.entry digit (Vector.mem_toList_iff.mp hdigit))).2.1
  · exact h.once p q ((mem_givens_slices h.entry).mp hp) ((mem_givens_slices h.entry).mp hq)

/-- Both texts of a consistent grid are accepted, with the same rows. -/
theorem accepts (h : g.Consistent) {text : String} (htext : text = g.line ∨ text = g.text) :
    Grammar.Accepts (Reader.boardLines text) (slices g.chars) [] := by
  have hlayout : Grammar.Layout (Reader.boardLines text) (slices g.chars) [] := by
    rcases htext with rfl | rfl
    · exact g.prints_line.layout_line g.length_chars (not_blank_chars h.entry)
    · exact g.prints_text.layout_rows g.length_chars (not_blank_chars h.entry)
  exact ⟨hlayout, h.flawless, by simp [Grammar.tokens]⟩

end Consistent

end Grid

/-! ## Fixed placements on a grid -/

namespace Fixes

variable {m : Matrix Placement} {fixed : List Placement} {gone : List String}

/-- The grid shows the placements that are fixed. -/
theorem grid_eq (h : Fixes m fixed gone) : Puzzle.grid ⟨m⟩ = Grid.ofPlacements fixed := by
  have hcandidates : m.solutionCandidates = fixed.map Placement.number := by
    rw [Matrix.solutionCandidates, h.solution, ← h.hints]
    simp
  have hpayload : fixed.filterMap (m.payload ∘ Placement.number) = fixed := by
    have hsome : fixed.filterMap (m.payload ∘ Placement.number) = fixed.filterMap some :=
      List.filterMap_congr fun p hp => h.payload (h.onBoard p hp)
    rw [hsome, List.filterMap_some]
  rw [Puzzle.grid, Puzzle.gridOf, hcandidates, List.filterMap_map, hpayload]

/-- The puzzle is solved if there is a placement for every cell. -/
theorem isSolved_iff (h : Fixes m fixed gone) (hapart : fixed.Pairwise Placement.Apart) :
    m.isSolved = true ↔ fixed.length = 81 := by
  have hcount := h.activeConstraintCount_add hapart
  rw [Matrix.isSolved, beq_iff_eq]
  omega

end Fixes

/-! ## Back from a text -/

/-- The puzzle shows this grid, its hints are the digits of the grid row by row, and it is solved
just when no cell is empty. -/
structure Puzzle.Holds (p : Puzzle) (g : Grid) : Prop where
  grid : p.grid = g
  hints : (p.matrix.hints.toList.map p.matrix.candidateOf).map p.matrix.payload =
    g.placements.map some
  solved : p.matrix.isSolved = g.isComplete

/-- Both texts of a consistent grid are puzzles that hold it. -/
theorem Grid.Consistent.parse {g : Grid} (h : g.Consistent) {text : String}
    (htext : text = g.line ∨ text = g.text) : ∃ p, Puzzle.parse text = .ok p ∧ p.Holds g := by
  have haccepts := h.accepts htext
  obtain ⟨m, hok, hfixes⟩ := Puzzle.parse_fixes haccepts
  have hapart := pairwise_apart_givens haccepts.layout.length_rows haccepts.flawless
  rw [givens_slices h.entry] at hfixes hapart
  refine ⟨⟨m⟩, hok, ?_, (hfixes.shows hapart).hints, ?_⟩
  · rw [hfixes.grid_eq, ofPlacements_placements h.entry]
  · rw [Bool.eq_iff_iff, hfixes.isSolved_iff hapart, length_placements_iff]

/-- Eliminations leave the hints. -/
theorem hints_eliminateAll {m n : Matrix Placement} {names : List String}
    (hok : Puzzle.eliminateAll m names = .ok n) : n.hints = m.hints := by
  induction names generalizing m with
  | nil =>
    cases hok
    rfl
  | cons name names ih =>
    unfold Puzzle.eliminateAll at hok
    split at hok
    · cases hok
    · next r hname =>
      rw [Matrix.eliminateCandidate_eq hname] at hok
      by_cases hactive : m.isCandidateActive r = true
      · rw [if_pos hactive] at hok
        exact (ih hok).trans (Matrix.relinked_eliminateRow m _).hints
      · rw [if_neg hactive] at hok
        exact ih hok

/-- The same givens are the same hints, whatever is eliminated. -/
theorem hints_ofDescription {d e : Description} {p q : Puzzle} (hp : Puzzle.ofDescription d = .ok p)
    (hq : Puzzle.ofDescription e = .ok q) (hsame : d.givens = e.givens) :
    p.matrix.hints = q.matrix.hints := by
  obtain ⟨m, n, hm, hn, rfl⟩ := ofDescription_ok hp
  obtain ⟨m', n', hm', hn', rfl⟩ := ofDescription_ok hq
  rw [hsame, hm'] at hm
  cases hm
  exact (hints_eliminateAll hn).trans (hints_eliminateAll hn').symm

/-- The grid of a puzzle that is read from a text is read back with the same hints. -/
theorem Puzzle.parse_line_of_parse {text : String} {p : Puzzle} (hp : Puzzle.parse text = .ok p) :
    ∃ q, Puzzle.parse p.grid.line = .ok q ∧ q.matrix.hints = p.matrix.hints ∧ q.grid = p.grid := by
  rcases Grammar.accepts_or_rejects (Reader.boardLines text) with ⟨rows, rest, haccepts⟩ | ⟨e, he⟩
  · obtain ⟨m, hm, hfixes⟩ := Puzzle.parse_fixes haccepts
    cases hp.symm.trans hm
    have hapart := pairwise_apart_givens haccepts.layout.length_rows haccepts.flawless
    obtain ⟨hconsistent, hhas⟩ := Grid.consistent_ofPlacements hfixes.onBoard hapart
    rw [← hfixes.grid_eq] at hconsistent hhas
    have hback := hconsistent.accepts (Or.inl rfl)
    have hgivens : Grammar.givens (slices (Puzzle.grid ⟨m⟩).chars) = Grammar.givens rows :=
      eq_of_before (Grammar.givens_ascending _) (Grammar.givens_ascending _) fun q =>
        (Grid.mem_givens_slices hconsistent.entry).trans (hhas q)
    obtain ⟨q, hq, hholds⟩ := hconsistent.parse (Or.inl rfl)
    refine ⟨q, hq, ?_, hholds.grid⟩
    rw [Puzzle.parse_flawless haccepts.layout haccepts.flawless] at hp
    rw [Puzzle.parse_flawless hback.layout hback.flawless] at hq
    exact hints_ofDescription hq hp hgivens
  · cases hp.symm.trans (Puzzle.parse_rejects he)

/-- A grid in which no digit is in a row, a column or a box twice is read back from its line, and
from its nine lines as well: the puzzle shows it, has its digits as hints row by row, and is solved
just when no cell is empty. And what is read from any text has a grid that is read back with the
same hints. -/
theorem Puzzle.parse_grid_texts :
    (∀ g : Grid, g.Consistent → (∃ p, Puzzle.parse g.line = .ok p ∧ p.Holds g) ∧
        ∃ p, Puzzle.parse g.text = .ok p ∧ p.Holds g) ∧
      ∀ text p, Puzzle.parse text = .ok p → ∃ q, Puzzle.parse p.grid.line = .ok q ∧
        q.matrix.hints = p.matrix.hints ∧ q.grid = p.grid :=
  ⟨fun _ h => ⟨h.parse (Or.inl rfl), h.parse (Or.inr rfl)⟩, fun _ _ => Puzzle.parse_line_of_parse⟩

/-- A grid of three digits, two of them the same. -/
def sparseGrid : Grid := .ofPlacements [⟨0, 0, 1⟩, ⟨1, 3, 1⟩, ⟨4, 4, 5⟩]

theorem Puzzle.parse_sparseGrid_texts :
    sparseGrid.Consistent ∧ (∃ p, Puzzle.parse sparseGrid.line = .ok p ∧ p.Holds sparseGrid) ∧
      (∃ p, Puzzle.parse sparseGrid.text = .ok p ∧ p.Holds sparseGrid) ∧
      ∃ p q, Puzzle.parse shiftedText = .ok p ∧ Puzzle.parse p.grid.line = .ok q ∧
        q.matrix.hints = p.matrix.hints ∧ q.grid = p.grid := by
  have hconsistent : sparseGrid.Consistent :=
    (Grid.consistent_ofPlacements (by decide) (by decide)).1
  obtain ⟨p, hp⟩ := exists_parse_shiftedText
  obtain ⟨q, hq⟩ := Puzzle.parse_grid_texts.2 shiftedText p hp
  exact ⟨hconsistent, (Puzzle.parse_grid_texts.1 sparseGrid hconsistent).1,
    (Puzzle.parse_grid_texts.1 sparseGrid hconsistent).2, p, q, hp, hq⟩

end ExactCover.Sudoku
