/-
ExactCover.Proofs.Sudoku.Grids — filled boards and the exact covers of the empty board.

A grid `Has` the placements that it shows. It is `Valid` if every cell has a digit and
every row, column and box has each digit once. That is so if its placements satisfy
each constraint of the board once (`Grid.valid_iff`), because each constraint stands for
a cell or for a digit in a row, a column or a box. So the placements of valid grids are
full solutions of the empty board (`fullSolution_numbers`).

And there are no others: the grid made of a full solution has its placements
(`numbers_ofPlacements`), since no two of them are in the same cell.
-/
import Mathlib.Order.Interval.Finset.Nat
import ExactCover.Proofs.Sudoku.Encoding

namespace ExactCover.Sudoku

/-! ## What a grid has -/

namespace Grid

variable {g : Grid} {p q : Placement}

/-- The grid has the digit in the cell. -/
def Has (g : Grid) (p : Placement) : Prop :=
  p.OnBoard ∧ g.cell? p.row p.col = some (some p.digit)

instance (p : Placement) : Decidable p.OnBoard :=
  decidable_of_iff (p.row < 9 ∧ p.col < 9 ∧ 1 ≤ p.digit ∧ p.digit ≤ 9)
    ⟨fun h => ⟨h.1, h.2.1, h.2.2.1, h.2.2.2⟩, fun h => ⟨h.1, h.2, h.3, h.4⟩⟩

instance (g : Grid) (p : Placement) : Decidable (g.Has p) :=
  inferInstanceAs (Decidable (_ ∧ _))

/-- Every cell has a digit, and every row, every column and every box has each digit exactly
once. -/
structure Valid (g : Grid) : Prop where
  cell : ∀ row < 9, ∀ col < 9, ∃ digit, g.Has ⟨row, col, digit⟩
  row : ∀ row < 9, ∀ digit, 1 ≤ digit → digit ≤ 9 → ∃! col, g.Has ⟨row, col, digit⟩
  column : ∀ col < 9, ∀ digit, 1 ≤ digit → digit ≤ 9 → ∃! row, g.Has ⟨row, col, digit⟩
  box : ∀ band < 3, ∀ stack < 3, ∀ digit, 1 ≤ digit → digit ≤ 9 →
    ∃! cell : Nat × Nat, cell.1 / 3 = band ∧ cell.2 / 3 = stack ∧ g.Has ⟨cell.1, cell.2, digit⟩

/-- The candidates of the placements that a grid has. -/
def numbers (g : Grid) : Finset CandidateId :=
  (Finset.Icc 1 729).filter fun r => g.Has (placementAt r)

theorem mem_numbers {r : CandidateId} :
    r ∈ g.numbers ↔ (1 ≤ r ∧ r ≤ 729) ∧ g.Has (placementAt r) := by
  rw [numbers, Finset.mem_filter, Finset.mem_Icc]

theorem number_mem_numbers (hp : p.OnBoard) : p.number ∈ g.numbers ↔ g.Has p := by
  rw [mem_numbers, hp.placementAt_number]
  exact and_iff_right hp.number_bounds

theorem has_iff (hp : p.OnBoard) : g.Has p ↔ g.cells[place p.row p.col]? = some p.digit := by
  have hpos := hp.digit_pos
  have hne : p.digit ≠ 0 := by omega
  unfold Has cell?
  rw [and_iff_right hp]
  cases g.cells[place p.row p.col]? with
  | none => simp
  | some digit =>
    by_cases hzero : digit = 0
    · simp [hzero, hne.symm]
    · simp [hzero]

/-- A cell has one digit. -/
theorem Has.eq_of_cell (hp : g.Has p) (hq : g.Has q) (hrow : p.row = q.row)
    (hcol : p.col = q.col) : p = q := by
  have hdigit := hp.2.symm.trans (hrow ▸ hcol ▸ hq.2)
  cases p
  cases q
  simp only [Option.some.injEq, Placement.mk.injEq] at *
  exact ⟨hrow, hcol, hdigit⟩

/-- Grids in which every cell has a digit are told apart by what they have. -/
theorem Valid.ext {f : Grid} (hf : f.Valid) (h : ∀ p, f.Has p → g.Has p) : f = g := by
  have hcells : f.cells = g.cells := by
    refine Vector.ext fun i hi => ?_
    obtain ⟨digit, hhas⟩ := hf.cell (i / 9) (by omega) (i % 9) (by omega)
    have hplace : place (i / 9) (i % 9) = i := Nat.div_add_mod' i 9
    have hfi := (has_iff hhas.1).mp hhas
    have hgi := (has_iff hhas.1).mp (h _ hhas)
    simp only [hplace, Vector.getElem?_eq_getElem hi, Option.some.injEq] at hfi hgi
    exact hfi.trans hgi.symm
  exact congrArg Grid.mk hcells

/-! ## Putting placements on a board -/

theorem not_has_empty : ¬ Grid.empty.Has p := by
  intro h
  have hpos := h.1.digit_pos
  have hcell := (has_iff h.1).mp h
  simp only [Grid.empty, Vector.getElem?_replicate] at hcell
  split at hcell
  · rw [← Option.some.inj hcell] at hpos
    exact absurd hpos (by decide)
  · cases hcell

theorem has_put (hp : p.OnBoard) (hq : q.OnBoard) :
    (g.put p).Has q ↔ q = p ∨ ((p.row = q.row → p.col ≠ q.col) ∧ g.Has q) := by
  have hsame : place p.row p.col = place q.row q.col ↔ p.row = q.row ∧ p.col = q.col := by
    have h1 := hp.col
    have h2 := hq.col
    unfold place
    omega
  have hlt : place q.row q.col < 81 := by
    have h1 := hq.row
    have h2 := hq.col
    unfold place
    omega
  rw [has_iff hq, has_iff hq, put, Vector.getElem?_setIfInBounds]
  by_cases hplace : place p.row p.col = place q.row q.col
  · obtain ⟨hrow, hcol⟩ := hsame.mp hplace
    rw [if_pos hplace, if_pos (hplace ▸ hlt)]
    cases p
    cases q
    simp only at hrow hcol
    simp [hrow, hcol, eq_comm]
  · have hne : q ≠ p := by
      rintro rfl
      exact hplace rfl
    have hapart : p.row = q.row → p.col ≠ q.col := fun hrow hcol =>
      hplace (hsame.mpr ⟨hrow, hcol⟩)
    rw [if_neg hplace, or_iff_right hne, and_iff_right hapart]

/-- No two placements differ in the same cell. -/
def Agree (ps : List Placement) : Prop :=
  ∀ p ∈ ps, ∀ q ∈ ps, p.row = q.row → p.col = q.col → p = q

theorem has_foldl_put {ps : List Placement} (hboard : ∀ p ∈ ps, p.OnBoard) (hps : Agree ps)
    (hq : q.OnBoard) : (ps.foldl put g).Has q ↔
      q ∈ ps ∨ ((∀ p ∈ ps, p.row = q.row → p.col ≠ q.col) ∧ g.Has q) := by
  induction ps generalizing g with
  | nil => simp
  | cons p ps ih =>
    have hp := hboard p List.mem_cons_self
    have hrest : Agree ps := fun a ha b hb =>
      hps a (List.mem_cons_of_mem p ha) b (List.mem_cons_of_mem p hb)
    rw [List.foldl_cons, ih (fun a ha => hboard a (List.mem_cons_of_mem p ha)) hrest,
      has_put hp hq, List.mem_cons, List.forall_mem_cons]
    constructor
    · rintro (h | ⟨hapart, rfl | ⟨hp', hg⟩⟩)
      · exact Or.inl (Or.inr h)
      · exact Or.inl (Or.inl rfl)
      · exact Or.inr ⟨⟨hp', hapart⟩, hg⟩
    · rintro ((rfl | h) | ⟨⟨hp', hapart⟩, hg⟩)
      · -- a later placement in the cell of `q` would be `q` again
        by_cases hq' : q ∈ ps
        · exact Or.inl hq'
        · refine Or.inr ⟨fun a ha hrow hcol => hq' ?_, Or.inl rfl⟩
          rwa [← hps a (List.mem_cons_of_mem q ha) q List.mem_cons_self hrow hcol]
      · exact Or.inl h
      · exact Or.inr ⟨hapart, Or.inr ⟨hp', hg⟩⟩

/-- The grid of placements has these. -/
theorem has_ofPlacements {ps : List Placement} (hboard : ∀ p ∈ ps, p.OnBoard) (hps : Agree ps) :
    (ofPlacements ps).Has q ↔ q ∈ ps := by
  by_cases hq : q.OnBoard
  · rw [ofPlacements, has_foldl_put hboard hps hq]
    simp [not_has_empty]
  · exact iff_of_false (fun h => hq h.1) fun h => hq (hboard q h)

end Grid

/-! ## What the constraints say of a grid -/

section Units

variable {g : Grid} {p : Placement} {row col band stack digit : Nat}

theorem Placement.OnBoard.cell_mem (hp : p.OnBoard) (hrow : row < 9) (hcol : col < 9) :
    row * 9 + col + 1 ∈ p.constraintNumbers ↔ p.row = row ∧ p.col = col := by
  obtain ⟨h1, h2, h3, h4⟩ := hp
  simp only [constraintNumbers, List.mem_cons, List.not_mem_nil, or_false]
  omega

theorem Placement.OnBoard.row_mem (hp : p.OnBoard) (hrow : row < 9) (hpos : 1 ≤ digit)
    (hdigit : digit ≤ 9) :
    81 + (row * 9 + digit) ∈ p.constraintNumbers ↔ p.row = row ∧ p.digit = digit := by
  obtain ⟨h1, h2, h3, h4⟩ := hp
  simp only [constraintNumbers, List.mem_cons, List.not_mem_nil, or_false]
  omega

theorem Placement.OnBoard.column_mem (hp : p.OnBoard) (hcol : col < 9) (hpos : 1 ≤ digit)
    (hdigit : digit ≤ 9) :
    162 + (col * 9 + digit) ∈ p.constraintNumbers ↔ p.col = col ∧ p.digit = digit := by
  obtain ⟨h1, h2, h3, h4⟩ := hp
  simp only [constraintNumbers, List.mem_cons, List.not_mem_nil, or_false]
  omega

theorem Placement.OnBoard.box_mem (hp : p.OnBoard) (hstack : stack < 3)
    (hpos : 1 ≤ digit) (hdigit : digit ≤ 9) :
    243 + ((band * 3 + stack) * 9 + digit) ∈ p.constraintNumbers ↔
      p.row / 3 = band ∧ p.col / 3 = stack ∧ p.digit = digit := by
  have hbox := hp.box_eq
  obtain ⟨h1, h2, h3, h4⟩ := hp
  simp only [constraintNumbers, hbox, List.mem_cons, List.not_mem_nil, or_false]
  omega

/-- What is unique is so among the values of a parameter on which it depends. -/
theorem existsUnique_param {α β : Type} {f : α → β} (hf : Function.Injective f) {P : β → Prop}
    (hrange : ∀ b, P b → ∃ a, f a = b) : (∃! b, P b) ↔ ∃! a, P (f a) := by
  constructor
  · intro h'
    obtain ⟨b, hb, hone⟩ := h'
    obtain ⟨a, rfl⟩ := hrange b hb
    exact ⟨a, hb, fun a' ha' => hf (hone _ ha')⟩
  · intro h'
    obtain ⟨a, ha, hone⟩ := h'
    refine ⟨f a, ha, fun b hb => ?_⟩
    obtain ⟨a', rfl⟩ := hrange b hb
    rw [hone a' hb]

/-- The placements of a grid satisfy a constraint exactly once. -/
def Grid.Satisfies (g : Grid) (c : Nat) : Prop :=
  ∃! p, g.Has p ∧ c ∈ p.constraintNumbers

namespace Grid

theorem satisfies_cell (hrow : row < 9) (hcol : col < 9) :
    g.Satisfies (row * 9 + col + 1) ↔ ∃ digit, g.Has ⟨row, col, digit⟩ := by
  constructor
  · intro h'
    obtain ⟨p, ⟨hp, hc⟩, -⟩ := h'
    obtain ⟨rfl, rfl⟩ := (hp.1.cell_mem hrow hcol).mp hc
    exact ⟨p.digit, hp⟩
  · intro h'
    obtain ⟨digit, hp⟩ := h'
    refine ⟨_, ⟨hp, (hp.1.cell_mem hrow hcol).mpr ⟨rfl, rfl⟩⟩, fun q hq => ?_⟩
    obtain ⟨h1, h2⟩ := (hq.1.1.cell_mem hrow hcol).mp hq.2
    exact hq.1.eq_of_cell hp h1 h2

theorem satisfies_row (hrow : row < 9) (hpos : 1 ≤ digit) (hdigit : digit ≤ 9) :
    g.Satisfies (81 + (row * 9 + digit)) ↔ ∃! col, g.Has ⟨row, col, digit⟩ := by
  have hinjective : Function.Injective fun col => Placement.mk row col digit :=
    fun a b heq => (Placement.mk.inj heq).2.1
  rw [Satisfies, existsUnique_param hinjective]
  · refine existsUnique_congr fun col => and_iff_left_of_imp fun hp => ?_
    exact (hp.1.row_mem hrow hpos hdigit).mpr ⟨rfl, rfl⟩
  · intro p hp
    obtain ⟨rfl, rfl⟩ := (hp.1.1.row_mem hrow hpos hdigit).mp hp.2
    exact ⟨p.col, rfl⟩

theorem satisfies_column (hcol : col < 9) (hpos : 1 ≤ digit) (hdigit : digit ≤ 9) :
    g.Satisfies (162 + (col * 9 + digit)) ↔ ∃! row, g.Has ⟨row, col, digit⟩ := by
  have hinjective : Function.Injective fun row => Placement.mk row col digit :=
    fun a b heq => (Placement.mk.inj heq).1
  rw [Satisfies, existsUnique_param hinjective]
  · refine existsUnique_congr fun row => and_iff_left_of_imp fun hp => ?_
    exact (hp.1.column_mem hcol hpos hdigit).mpr ⟨rfl, rfl⟩
  · intro p hp
    obtain ⟨rfl, rfl⟩ := (hp.1.1.column_mem hcol hpos hdigit).mp hp.2
    exact ⟨p.row, rfl⟩

theorem satisfies_box (hstack : stack < 3) (hpos : 1 ≤ digit)
    (hdigit : digit ≤ 9) : g.Satisfies (243 + ((band * 3 + stack) * 9 + digit)) ↔
      ∃! cell : Nat × Nat, cell.1 / 3 = band ∧ cell.2 / 3 = stack ∧
        g.Has ⟨cell.1, cell.2, digit⟩ := by
  have hinjective : Function.Injective fun cell : Nat × Nat =>
      Placement.mk cell.1 cell.2 digit := by
    intro a b heq
    obtain ⟨hrow, hcol, -⟩ := Placement.mk.inj heq
    exact Prod.ext hrow hcol
  rw [Satisfies, existsUnique_param hinjective]
  · refine existsUnique_congr fun cell => ?_
    constructor
    · intro h'
      obtain ⟨hp, hc⟩ := h'
      obtain ⟨h1, h2, -⟩ := (hp.1.box_mem hstack hpos hdigit).mp hc
      exact ⟨h1, h2, hp⟩
    · intro h'
      obtain ⟨h1, h2, hp⟩ := h'
      exact ⟨hp, (hp.1.box_mem hstack hpos hdigit).mpr ⟨h1, h2, rfl⟩⟩
  · intro p hp
    obtain ⟨-, -, rfl⟩ := (hp.1.1.box_mem hstack hpos hdigit).mp hp.2
    exact ⟨(p.row, p.col), rfl⟩

/-- A grid is valid if its placements satisfy every constraint exactly once. -/
theorem valid_iff : g.Valid ↔ ∀ c : Nat, 1 ≤ c → c ≤ 324 → g.Satisfies c := by
  constructor
  · intro h c hpos hle
    -- the constraints come in four blocks of 81: cells, rows, columns, boxes
    by_cases hcell : c ≤ 81
    · obtain ⟨row, col, hrow, hcol, rfl⟩ : ∃ row col, row < 9 ∧ col < 9 ∧ c = row * 9 + col + 1 :=
        ⟨(c - 1) / 9, (c - 1) % 9, by omega⟩
      exact (satisfies_cell hrow hcol).mpr (h.cell row hrow col hcol)
    by_cases hrows : c ≤ 162
    · obtain ⟨row, digit, hrow, h1, h9, rfl⟩ : ∃ row digit, row < 9 ∧ 1 ≤ digit ∧ digit ≤ 9 ∧
          c = 81 + (row * 9 + digit) := ⟨(c - 82) / 9, (c - 82) % 9 + 1, by omega⟩
      exact (satisfies_row hrow h1 h9).mpr (h.row row hrow digit h1 h9)
    by_cases hcolumns : c ≤ 243
    · obtain ⟨col, digit, hcol, h1, h9, rfl⟩ : ∃ col digit, col < 9 ∧ 1 ≤ digit ∧ digit ≤ 9 ∧
          c = 162 + (col * 9 + digit) := ⟨(c - 163) / 9, (c - 163) % 9 + 1, by omega⟩
      exact (satisfies_column hcol h1 h9).mpr (h.column col hcol digit h1 h9)
    · obtain ⟨band, stack, digit, hband, hstack, h1, h9, rfl⟩ : ∃ band stack digit, band < 3 ∧
          stack < 3 ∧ 1 ≤ digit ∧ digit ≤ 9 ∧ c = 243 + ((band * 3 + stack) * 9 + digit) :=
        ⟨(c - 244) / 27, (c - 244) / 9 % 3, (c - 244) % 9 + 1, by omega⟩
      exact (satisfies_box hstack h1 h9).mpr (h.box band hband stack hstack digit h1 h9)
  · intro h
    refine ⟨fun row hrow col hcol => ?_, fun row hrow digit h1 h9 => ?_,
      fun col hcol digit h1 h9 => ?_, fun band hband stack hstack digit h1 h9 => ?_⟩
    · exact (satisfies_cell hrow hcol).mp (h _ (by omega) (by omega))
    · exact (satisfies_row hrow h1 h9).mp (h _ (by omega) (by omega))
    · exact (satisfies_column hcol h1 h9).mp (h _ (by omega) (by omega))
    · exact (satisfies_box hstack h1 h9).mp (h _ (by omega) (by omega))

end Grid

end Units

/-! ## Full solutions of the empty board -/

section FullSolutions

variable {g : Grid}

/-- The full solutions of the empty board. -/
theorem fullSolution_board {F : Finset CandidateId} :
    board.FullSolution F ↔ (∀ r ∈ F, 1 ≤ r ∧ r ≤ 729) ∧ ∀ c, 1 ≤ c → c ≤ 324 →
      ∃! r, r ∈ F ∧ c ∈ (placementAt r).constraintNumbers := by
  have hboard := encodes_board
  rw [built_board.fullSolution_iff hboard.primary]
  simp only [hboard.hasCandidate, hboard.hasConstraint, and_imp]
  refine and_congr_right fun hF => forall₃_congr fun c _ _ => existsUnique_congr fun r => ?_
  exact and_congr_right fun hr => hboard.hits r ((hboard.hasCandidate r).mpr (hF r hr)) c

/-- A grid is valid if its placements are a full solution of the empty board. -/
theorem fullSolution_numbers : board.FullSolution g.numbers ↔ g.Valid := by
  rw [fullSolution_board, Grid.valid_iff,
    and_iff_right fun r hr => (Grid.mem_numbers.mp hr).1]
  refine forall₃_congr fun c _ _ => ?_
  constructor
  · intro h'
    obtain ⟨r, ⟨hr, hc⟩, hone⟩ := h'
    refine ⟨placementAt r, ⟨(Grid.mem_numbers.mp hr).2, hc⟩, fun q hq => ?_⟩
    have hnumber := hone q.number ⟨(Grid.number_mem_numbers hq.1.1).mpr hq.1, by
      rw [hq.1.1.placementAt_number]
      exact hq.2⟩
    rw [← hnumber, hq.1.1.placementAt_number]
  · intro h'
    obtain ⟨p, ⟨hp, hc⟩, hone⟩ := h'
    refine ⟨p.number, ⟨(Grid.number_mem_numbers hp.1).mpr hp, ?_⟩, fun q hq => ?_⟩
    · rwa [hp.1.placementAt_number]
    · obtain ⟨hbounds, hhas⟩ := Grid.mem_numbers.mp hq.1
      rw [← hone _ ⟨hhas, hq.2⟩, number_placementAt hbounds]

/-- The grid made of a full solution has just its placements. -/
theorem numbers_ofPlacements {rs : List CandidateId} (h : board.FullSolution rs.toFinset) :
    (Grid.ofPlacements (rs.map placementAt)).numbers = rs.toFinset := by
  obtain ⟨hbounds, hone⟩ := fullSolution_board.mp h
  simp only [List.mem_toFinset] at hbounds hone
  have honBoard : ∀ p ∈ rs.map placementAt, p.OnBoard := by
    intro p hp
    obtain ⟨r, hr, rfl⟩ := List.mem_map.mp hp
    exact onBoard_placementAt (hbounds r hr)
  have hagree : Grid.Agree (rs.map placementAt) := by
    intro p hp q hq hrow hcol
    have hp' := honBoard p hp
    have hq' := honBoard q hq
    obtain ⟨r, hr, rfl⟩ := List.mem_map.mp hp
    obtain ⟨s, hs, rfl⟩ := List.mem_map.mp hq
    have hrow9 := hq'.row
    have hcol9 := hq'.col
    -- both satisfy the constraint of their cell, and one candidate does
    have hcell := hone ((placementAt s).row * 9 + (placementAt s).col + 1) (by omega) (by omega)
    rw [hcell.unique ⟨hr, (hp'.cell_mem hrow9 hcol9).mpr ⟨hrow, hcol⟩⟩
      ⟨hs, (hq'.cell_mem hrow9 hcol9).mpr ⟨rfl, rfl⟩⟩]
  ext r
  rw [Grid.mem_numbers, Grid.has_ofPlacements honBoard hagree, List.mem_toFinset]
  constructor
  · intro h'
    obtain ⟨hr, hmem⟩ := h'
    obtain ⟨s, hs, heq⟩ := List.mem_map.mp hmem
    rwa [← number_placementAt hr, ← heq, number_placementAt (hbounds s hs)]
  · exact fun hr => ⟨hbounds r hr, List.mem_map_of_mem hr⟩

/-- Valid grids are told apart by their numbers. -/
theorem Grid.Valid.eq_of_numbers {f : Grid} (hf : f.Valid) (h : f.numbers = g.numbers) : f = g := by
  refine hf.ext fun p hp => ?_
  rwa [← Grid.number_mem_numbers hp.1, ← h, Grid.number_mem_numbers hp.1]

end FullSolutions

end ExactCover.Sudoku
