/-
ExactCover.Proofs.Sudoku.Grammar — the grammar of puzzle texts, and that the reader
keeps to it.

The grammar speaks about the lines of a text as a whole. `Layout` takes them apart into
the rows of a board and the lines after it. `givens` are the placements of the digits in
the rows. `faults` is all that is wrong with the rows, in the order in which they are
read, where all rows are asked whether a digit has been given before. `Flawless` says
that nothing is wrong without going through the rows (`faults_eq_nil_iff`).

The reader has no more in hand than the placements it has met. These are the givens
before the cell it is at (`Seen`, kept by each step), so what it finds wrong with a cell
is what the grammar finds wrong with it, and it stops at the first fault (`readRows_eq`,
`read_layout`).
-/
import ExactCover.Proofs.Sudoku.Encoding
import ExactCover.Sudoku.Reader

namespace ExactCover.Sudoku

/-- The cell of the placement comes before the one in this row and column. -/
def Placement.Before (p : Placement) (row col : Nat) : Prop :=
  p.row < row ∨ p.row = row ∧ p.col < col

instance (p : Placement) (row col : Nat) : Decidable (p.Before row col) :=
  inferInstanceAs (Decidable (p.row < row ∨ p.row = row ∧ p.col < col))

namespace Grammar

/-! ## The grammar -/

/-- The lines are the rows of a board, in one of two layouts, and the lines after it. -/
inductive Layout : List (List Char) → List (List Char) → List (List Char) → Prop
  /-- The first line is the whole board. -/
  | line {first : List Char} {rest : List (List Char)} :
      first.length = 81 →
      Layout (first :: rest) ((List.range 9).map fun row => (first.drop (row * 9)).take 9) rest
  /-- Nine lines are the rows. -/
  | rows {first : List Char} {more rest : List (List Char)} :
      first.length ≠ 81 → more.length = 8 → Layout (first :: (more ++ rest)) (first :: more) rest

/-- There are not enough lines for a board. -/
def TooShort (lines : List (List Char)) : Prop :=
  lines.length < 9 ∧ ∀ first ∈ lines.head?, first.length ≠ 81

/-- The placement of an entry, if this is a digit from 1 to 9. -/
def placement? (row col : Nat) (entry : Char) : Option Placement :=
  if '1' ≤ entry ∧ entry ≤ '9' then some ⟨row, col, entry.toNat - '0'.toNat⟩ else none

/-- The placements in the cells of a row, which begin with a column. -/
def rowGivens (row col : Nat) (cells : List Char) : List Placement :=
  (cells.zipIdx col).filterMap fun x => placement? row x.2 x.1

/-- The placements in some rows, which begin with a row. -/
def givensFrom (row : Nat) (rows : List (List Char)) : List Placement :=
  (rows.zipIdx row).flatMap fun x => rowGivens x.2 0 x.1

/-- The given placements, row by row. -/
def givens (rows : List (List Char)) : List Placement := givensFrom 0 rows

/-- The placements of the same digit in the cells before. -/
def earlier (rows : List (List Char)) (p : Placement) : List Placement :=
  (givens rows).filter fun q => q.Before p.row p.col ∧ q.digit = p.digit

/-- The house in which the digit has been given before: the row, or else the column, or else the
box. -/
def repeated? (rows : List (List Char)) (p : Placement) : Option (Kind × Nat) :=
  if ∃ q ∈ earlier rows p, q.row = p.row then some (.row, p.row)
  else if ∃ q ∈ earlier rows p, q.col = p.col then some (.column, p.col)
  else if ∃ q ∈ earlier rows p, q.box = p.box then some (.box, p.box)
  else none

/-- What is wrong with a cell: its entry is neither a digit nor a point, or the digit has been given
before. -/
def cellFault? (rows : List (List Char)) (row col : Nat) (entry : Char) : Option ParseError :=
  match placement? row col entry with
  | none => if entry = '.' then none else some (.invalidEntry row col entry)
  | some p => (repeated? rows p).map fun house => .duplicateDigit house.1 house.2 p.digit

/-- What is wrong with a row: its length, and then its cells. -/
def rowFaults (rows : List (List Char)) (row : Nat) (cells : List Char) : List ParseError :=
  (if cells.length = 9 then [] else [.invalidLineLength row cells.length]) ++
    cells.zipIdx.filterMap fun x => cellFault? rows row x.2 x.1

/-- All that is wrong with the rows, row by row. -/
def faults (rows : List (List Char)) : List ParseError :=
  rows.zipIdx.flatMap fun x => rowFaults rows x.2 x.1

/-- Every row has nine cells, every cell a digit or a point, and no digit is given twice in a row, a
column or a box. -/
structure Flawless (rows : List (List Char)) : Prop where
  width : ∀ cells ∈ rows, cells.length = 9
  entry : ∀ cells ∈ rows, ∀ c ∈ cells, c = '.' ∨ ('1' ≤ c ∧ c ≤ '9')
  once : ∀ p ∈ givens rows, ∀ q ∈ givens rows, p ≠ q → p.digit = q.digit →
    p.row ≠ q.row ∧ p.col ≠ q.col ∧ p.box ≠ q.box

/-- The words of the lines after the board. -/
def tokens (rest : List (List Char)) : List String := (rest.flatMap Text.words).map String.ofList

/-- The names of the candidates. -/
def candidateNames : List String := boardPlacements.map Placement.name

/-- The lines are the rows of a flawless board and lines with names of candidates. -/
structure Accepts (lines rows rest : List (List Char)) : Prop where
  layout : Layout lines rows rest
  flawless : Flawless rows
  known : ∀ s ∈ tokens rest, s ∈ candidateNames

/-- The lines are refused, with this error: there are too few of them, or else the rows have a first
fault, or else there is a first word that names no candidate. -/
inductive Rejects (lines : List (List Char)) : ParseError → Prop
  | tooShort : TooShort lines → Rejects lines (.notEnoughRows lines.length)
  | fault {rows rest : List (List Char)} {e : ParseError} :
      Layout lines rows rest → (faults rows).head? = some e → Rejects lines e
  | unknown {rows rest : List (List Char)} {s : String} :
      Layout lines rows rest → Flawless rows →
      (tokens rest).find? (fun s => s ∉ candidateNames) = some s →
      Rejects lines (.unknownCandidate s)

/-! ## Layouts -/

section Layouts

variable {lines rows rest : List (List Char)} {cells : List Char}

theorem layout_or_tooShort (lines : List (List Char)) :
    TooShort lines ∨ ∃ rows rest, Layout lines rows rest := by
  cases lines with
  | nil => exact Or.inl ⟨by simp, by simp⟩
  | cons first others =>
    by_cases hline : first.length = 81
    · exact Or.inr ⟨_, _, .line hline⟩
    · by_cases hmany : others.length < 8
      · exact Or.inl ⟨Nat.succ_lt_succ hmany, by simpa using hline⟩
      · have height : (others.take 8).length = 8 := by
          rw [List.length_take]
          omega
        have hlayout : Layout (first :: (others.take 8 ++ others.drop 8)) (first :: others.take 8)
            (others.drop 8) := .rows hline height
        rw [List.take_append_drop] at hlayout
        exact Or.inr ⟨_, _, hlayout⟩

theorem splitBoard_tooShort (h : TooShort lines) :
    Reader.splitBoard lines = .error (.notEnoughRows lines.length) := by
  obtain ⟨hfew, hline⟩ := h
  cases lines with
  | nil => rfl
  | cons first others =>
    have hmany : others.length < 8 := Nat.lt_of_succ_lt_succ hfew
    rw [Reader.splitBoard, if_neg (hline first rfl), if_pos hmany]
    rfl

theorem getElem?_chunks {n i : Nat} (hi : i < n) :
    (Reader.chunks n cells)[i]? = some ((cells.drop (i * 9)).take 9) := by
  induction n generalizing i cells with
  | zero => cases hi
  | succ n ih =>
    cases i with
    | zero => simp [Reader.chunks]
    | succ i =>
      rw [Reader.chunks, List.getElem?_cons_succ, ih (Nat.lt_of_succ_lt_succ hi), List.drop_drop]
      have hstart : 9 + i * 9 = (i + 1) * 9 := by omega
      rw [hstart]

theorem length_chunks (n : Nat) : (Reader.chunks n cells).length = n := by
  induction n generalizing cells with
  | zero => rfl
  | succ n ih => rw [Reader.chunks, List.length_cons, ih]

theorem chunks_eq (first : List Char) :
    Reader.chunks 9 first = (List.range 9).map fun row => (first.drop (row * 9)).take 9 := by
  refine List.ext_getElem? fun i => ?_
  rcases Nat.lt_or_ge i 9 with hi | hi
  · rw [getElem?_chunks hi, List.getElem?_map, List.getElem?_range hi]
    rfl
  · rw [List.getElem?_eq_none (by rwa [length_chunks]), List.getElem?_eq_none (by simpa)]

theorem splitBoard_layout (h : Layout lines rows rest) :
    Reader.splitBoard lines = .ok (rows, rest) := by
  cases h with
  | line hline => rw [Reader.splitBoard, if_pos hline, chunks_eq]
  | @rows first more rest hline hheight =>
    have hmany : ¬ (more ++ rest).length < 8 := by
      rw [List.length_append]
      omega
    rw [Reader.splitBoard, if_neg hline, if_neg hmany, ← hheight, List.take_left, List.drop_left]

theorem Layout.length_rows (h : Layout lines rows rest) : rows.length = 9 := by
  cases h with
  | line => simp
  | rows _ hheight => rw [List.length_cons, hheight]

end Layouts

/-! ## Givens -/

section Givens

variable {rows : List (List Char)} {cells whole : List Char} {row col : Nat} {entry : Char}
  {p q : Placement} {seen : List Placement}

/-- The characters between 1 and 9 are the digits. -/
theorem digitChar_sub (h : '1' ≤ entry ∧ entry ≤ '9') :
    1 ≤ entry.toNat - '0'.toNat ∧ entry.toNat - '0'.toNat ≤ 9 ∧
      Nat.digitChar (entry.toNat - '0'.toNat) = entry := by
  have hlow : 49 ≤ entry.toNat := h.1
  have hhigh : entry.toNat ≤ 57 := h.2
  have hall : ∀ n ≤ 57, 49 ≤ n → Nat.digitChar (n - 48) = Char.ofNat n := by decide
  refine ⟨Nat.le_sub_of_add_le hlow, Nat.sub_le_of_le_add hhigh, ?_⟩
  exact (hall entry.toNat hhigh hlow).trans (Char.ofNat_toNat entry)

theorem digitChar_sub_zero {digit : Nat} (hdigit : digit ≤ 9) :
    (Nat.digitChar digit).toNat - '0'.toNat = digit := by
  have hall : ∀ d ≤ 9, (Nat.digitChar d).toNat - '0'.toNat = d := by decide
  exact hall digit hdigit

theorem placement?_eq_some_iff :
    placement? row col entry = some p ↔
      p.row = row ∧ p.col = col ∧ 1 ≤ p.digit ∧ p.digit ≤ 9 ∧ entry = Nat.digitChar p.digit := by
  unfold placement?
  split
  · next hdigit =>
    obtain ⟨hpos, hle, hchar⟩ := digitChar_sub hdigit
    rw [Option.some.injEq]
    constructor
    · rintro rfl
      exact ⟨rfl, rfl, hpos, hle, hchar.symm⟩
    · rintro ⟨rfl, rfl, -, hle', rfl⟩
      rw [digitChar_sub_zero hle']
  · next hdigit =>
    refine iff_of_false (Option.some_ne_none p).symm fun h => hdigit ?_
    obtain ⟨-, -, hpos, hle, rfl⟩ := h
    have hall : ∀ d ≤ 9, 1 ≤ d → '1' ≤ Nat.digitChar d ∧ Nat.digitChar d ≤ '9' := by decide
    exact hall p.digit hle hpos

theorem mem_rowGivens :
    p ∈ rowGivens row 0 cells ↔
      ∃ entry, cells[p.col]? = some entry ∧ placement? row p.col entry = some p := by
  simp only [rowGivens, List.mem_filterMap, Prod.exists, List.mem_zipIdx_iff_getElem?]
  constructor
  · rintro ⟨entry, col, hentry, hp⟩
    obtain ⟨-, rfl, -⟩ := placement?_eq_some_iff.mp hp
    exact ⟨entry, hentry, hp⟩
  · rintro ⟨entry, hentry, hp⟩
    exact ⟨entry, p.col, hentry, hp⟩

/-- A placement is given if its digit stands where its cell is. -/
theorem mem_givens :
    p ∈ givens rows ↔ ∃ cells entry, rows[p.row]? = some cells ∧ cells[p.col]? = some entry ∧
      placement? p.row p.col entry = some p := by
  simp only [givens, givensFrom, List.mem_flatMap, Prod.exists, List.mem_zipIdx_iff_getElem?,
    mem_rowGivens]
  constructor
  · rintro ⟨cells, row, hcells, entry, hentry, hp⟩
    obtain ⟨rfl, -⟩ := placement?_eq_some_iff.mp hp
    exact ⟨cells, entry, hcells, hentry, hp⟩
  · rintro ⟨cells, entry, hcells, hentry, hp⟩
    exact ⟨cells, p.row, hcells, entry, hentry, hp⟩

/-- No cell has two of the givens. -/
theorem eq_of_cell (hp : p ∈ givens rows) (hq : q ∈ givens rows) (hrow : p.row = q.row)
    (hcol : p.col = q.col) : p = q := by
  obtain ⟨cells, entry, hcells, hentry, hp⟩ := mem_givens.mp hp
  obtain ⟨cells', entry', hcells', hentry', hq⟩ := mem_givens.mp hq
  rw [hrow] at hcells hp
  rw [hcol] at hentry hp
  cases hcells.symm.trans hcells'
  cases hentry.symm.trans hentry'
  exact Option.some.inj (hp.symm.trans hq)

theorem zipIdx_ascending {α : Type} (xs : List α) (n : Nat) :
    (xs.zipIdx n).Pairwise fun x y => x.2 < y.2 := by
  have hsorted : ((xs.zipIdx n).map Prod.snd).Pairwise (· < ·) := by
    rw [List.zipIdx_map_snd]
    exact List.pairwise_lt_range'
  exact List.pairwise_map.mp hsorted

/-- The givens come row by row, and in a row from left to right. -/
theorem givens_ascending (rows : List (List Char)) :
    (givens rows).Pairwise fun p q => p.Before q.row q.col := by
  refine List.pairwise_flatMap.mpr ⟨fun x _ => ?_, ?_⟩
  · refine List.pairwise_filterMap.mpr ((zipIdx_ascending x.1 0).imp fun hlt p hp q hq => ?_)
    obtain ⟨hrow, hcol, -⟩ := placement?_eq_some_iff.mp hp
    obtain ⟨hrow', hcol', -⟩ := placement?_eq_some_iff.mp hq
    exact Or.inr ⟨hrow.trans hrow'.symm, by omega⟩
  · refine (zipIdx_ascending rows 0).imp fun hlt p hp q hq => ?_
    obtain ⟨_, -, hp⟩ := mem_rowGivens.mp hp
    obtain ⟨_, -, hq⟩ := mem_rowGivens.mp hq
    obtain ⟨hrow, -⟩ := placement?_eq_some_iff.mp hp
    obtain ⟨hrow', -⟩ := placement?_eq_some_iff.mp hq
    exact Or.inl (by omega)

theorem nodup_givens (rows : List (List Char)) : (givens rows).Nodup := by
  refine (givens_ascending rows).imp ?_
  rintro p q hbefore rfl
  rcases hbefore with hlt | ⟨-, hlt⟩
  · exact Nat.lt_irrefl _ hlt
  · exact Nat.lt_irrefl _ hlt

/-- In nine rows of nine cells the givens are on the board. -/
theorem onBoard_givens (hheight : rows.length = 9) (hwidth : ∀ cells ∈ rows, cells.length = 9)
    (hp : p ∈ givens rows) : p.OnBoard := by
  obtain ⟨cells, entry, hcells, hentry, hp⟩ := mem_givens.mp hp
  obtain ⟨-, -, hpos, hle, -⟩ := placement?_eq_some_iff.mp hp
  obtain ⟨hrow, -⟩ := List.getElem?_eq_some_iff.mp hcells
  obtain ⟨hcol, -⟩ := List.getElem?_eq_some_iff.mp hentry
  rw [hwidth cells (List.mem_of_getElem? hcells)] at hcol
  exact ⟨hheight ▸ hrow, hcol, hpos, hle⟩

/-! ## What the reader has met -/

/-- The placements are the givens before a cell. -/
def Seen (rows : List (List Char)) (row col : Nat) (seen : List Placement) : Prop :=
  ∀ q, q ∈ seen ↔ q ∈ givens rows ∧ q.Before row col

theorem seen_nil (rows : List (List Char)) : Seen rows 0 0 [] := by
  intro q
  simp [Placement.Before]

/-- Behind a cell its placement has been met as well. -/
theorem Seen.nextCell (h : Seen rows row col seen) (hline : rows[row]? = some whole)
    (hentry : whole[col]? = some entry) :
    Seen rows row (col + 1) ((placement? row col entry).toList ++ seen) := by
  intro q
  have hhere : q ∈ (placement? row col entry).toList ↔
      q ∈ givens rows ∧ q.row = row ∧ q.col = col := by
    rw [Option.mem_toList, mem_givens]
    constructor
    · intro hq
      obtain ⟨rfl, rfl, -⟩ := placement?_eq_some_iff.mp hq
      exact ⟨⟨whole, entry, hline, hentry, hq⟩, rfl, rfl⟩
    · rintro ⟨⟨cells, e, hcells, he, hq⟩, rfl, rfl⟩
      cases hline.symm.trans hcells
      cases hentry.symm.trans he
      exact hq
  rw [List.mem_append, hhere, h q, ← and_or_left]
  refine and_congr_right fun _ => ?_
  unfold Placement.Before
  omega

/-- Behind the last cell of a row comes the next row. -/
theorem Seen.nextRow (h : Seen rows row whole.length seen) (hline : rows[row]? = some whole) :
    Seen rows (row + 1) 0 seen := by
  intro q
  rw [h q]
  refine and_congr_right fun hq => ?_
  obtain ⟨cells, entry, hcells, hentry, -⟩ := mem_givens.mp hq
  unfold Placement.Before
  constructor
  · rintro (hlt | ⟨heq, -⟩)
    · exact Or.inl (Nat.lt_succ_of_lt hlt)
    · exact Or.inl (heq ▸ Nat.lt_succ_self _)
  · rintro (hlt | ⟨-, hlt⟩)
    · rcases Nat.lt_or_eq_of_le (Nat.le_of_lt_succ hlt) with hlt | heq
      · exact Or.inl hlt
      · rw [heq, hline] at hcells
        cases hcells
        exact Or.inr ⟨heq, (List.getElem?_eq_some_iff.mp hentry).1⟩
    · cases hlt

theorem Seen.any_iff (h : Seen rows p.row p.col seen) (f : Placement → Nat) :
    ((seen.filter fun q => q.digit == p.digit).any fun q => f q == f p) = true ↔
      ∃ q ∈ earlier rows p, f q = f p := by
  simp only [List.any_filter, List.any_eq_true, Bool.and_eq_true, beq_iff_eq, earlier,
    List.mem_filter, decide_eq_true_eq, h _, and_assoc]

/-- The reader and the grammar see a repetition in the same house. -/
theorem Seen.sharedHouse?_eq (h : Seen rows p.row p.col seen) :
    Reader.sharedHouse? seen p = repeated? rows p :=
  if_congr (h.any_iff Placement.row) rfl (if_congr (h.any_iff Placement.col) rfl
    (if_congr (h.any_iff Placement.box) rfl rfl))

/-! ## Up to the first fault -/

theorem readCell_eq (h : Seen rows row col seen) (entry : Char) :
    Reader.readCell row col entry seen = (cellFault? rows row col entry).elim
      (.ok ((placement? row col entry).toList ++ seen)) .error := by
  unfold Reader.readCell cellFault? placement?
  by_cases hpoint : entry = '.'
  · subst hpoint
    rfl
  · rw [if_neg hpoint]
    split
    · next hdigit =>
      have hshared := Seen.sharedHouse?_eq (p := ⟨row, col, entry.toNat - '0'.toNat⟩) h
      simp only [hshared]
      cases repeated? rows ⟨row, col, entry.toNat - '0'.toNat⟩ with
      | none => rfl
      | some house => rfl
    · rfl

theorem rowGivens_cons (row col : Nat) (entry : Char) (cells : List Char) :
    rowGivens row col (entry :: cells) =
      (placement? row col entry).toList ++ rowGivens row (col + 1) cells := by
  rw [rowGivens, List.zipIdx_cons, List.filterMap_cons]
  cases placement? row col entry with
  | none => rfl
  | some p => rfl

theorem readCells_eq (hline : rows[row]? = some whole) (h : Seen rows row col seen)
    (hcells : whole.drop col = cells) :
    Reader.readCells row col cells seen =
        ((cells.zipIdx col).findSome? fun x => cellFault? rows row x.2 x.1).elim
          (.ok ((rowGivens row col cells).reverse ++ seen)) .error ∧
      Seen rows row (col + cells.length) ((rowGivens row col cells).reverse ++ seen) := by
  induction cells generalizing col seen with
  | nil => exact ⟨rfl, h⟩
  | cons entry cells ih =>
    have hentry : whole[col]? = some entry := by
      rw [← Nat.add_zero col, ← List.getElem?_drop, hcells]
      rfl
    have hrest : whole.drop (col + 1) = cells := by
      rw [← List.drop_drop, hcells]
      rfl
    obtain ⟨hread, hseen⟩ := ih (h.nextCell hline hentry) hrest
    have hjoin : (rowGivens row col (entry :: cells)).reverse ++ seen =
        (rowGivens row (col + 1) cells).reverse ++ ((placement? row col entry).toList ++ seen) := by
      rw [rowGivens_cons, List.reverse_append, List.append_assoc]
      cases placement? row col entry with
      | none => rfl
      | some p => rfl
    rw [hjoin]
    refine ⟨?_, ?_⟩
    · rw [Reader.readCells, readCell_eq h, List.zipIdx_cons, List.findSome?_cons]
      cases cellFault? rows row col entry with
      | some e => rfl
      | none => exact hread
    · rwa [List.length_cons, Nat.add_comm cells.length 1, ← Nat.add_assoc]

theorem head?_rowFaults (rows : List (List Char)) (row : Nat) (cells : List Char) :
    (rowFaults rows row cells).head? =
      if cells.length = 9 then cells.zipIdx.findSome? fun x => cellFault? rows row x.2 x.1
      else some (.invalidLineLength row cells.length) := by
  unfold rowFaults
  split
  · rw [List.nil_append, List.head?_filterMap]
  · rfl

theorem readRows_eq {tail : List (List Char)} (h : Seen rows row 0 seen)
    (htail : rows.drop row = tail) :
    Reader.readRows row tail seen =
      ((tail.zipIdx row).flatMap fun x => rowFaults rows x.2 x.1).head?.elim
        (.ok ((givensFrom row tail).reverse ++ seen)) .error := by
  induction tail generalizing row seen with
  | nil => rfl
  | cons cells tail ih =>
    have hline : rows[row]? = some cells := by
      rw [← Nat.add_zero row, ← List.getElem?_drop, htail]
      rfl
    have hrest : rows.drop (row + 1) = tail := by
      rw [← List.drop_drop, htail]
      rfl
    obtain ⟨hread, hseen⟩ := readCells_eq hline h (List.drop_zero (l := cells))
    rw [Nat.zero_add] at hseen
    have hjoin : (givensFrom row (cells :: tail)).reverse ++ seen =
        (givensFrom (row + 1) tail).reverse ++ ((rowGivens row 0 cells).reverse ++ seen) := by
      rw [givensFrom, List.zipIdx_cons, List.flatMap_cons, List.reverse_append, List.append_assoc]
      rfl
    rw [Reader.readRows, hread, hjoin, List.zipIdx_cons, List.flatMap_cons, List.head?_append,
      head?_rowFaults]
    by_cases hwidth : cells.length = 9
    · rw [if_pos hwidth, if_pos hwidth]
      cases cells.zipIdx.findSome? fun x => cellFault? rows row x.2 x.1 with
      | some e => rfl
      | none => exact ih (hseen.nextRow hline) hrest
    · rw [if_neg hwidth, if_neg hwidth]
      rfl

/-! ## Flawless rows -/

theorem repeated?_eq_none_iff :
    repeated? rows p = none ↔
      ∀ q ∈ earlier rows p, q.row ≠ p.row ∧ q.col ≠ p.col ∧ q.box ≠ p.box := by
  unfold repeated?
  split
  · next hrow =>
    obtain ⟨q, hq, hrow⟩ := hrow
    exact iff_of_false (Option.some_ne_none _) fun h => (h q hq).1 hrow
  · next hrow =>
    split
    · next hcol =>
      obtain ⟨q, hq, hcol⟩ := hcol
      exact iff_of_false (Option.some_ne_none _) fun h => (h q hq).2.1 hcol
    · next hcol =>
      split
      · next hbox =>
        obtain ⟨q, hq, hbox⟩ := hbox
        exact iff_of_false (Option.some_ne_none _) fun h => (h q hq).2.2 hbox
      · next hbox =>
        exact iff_of_true rfl fun q hq =>
          ⟨fun e => hrow ⟨q, hq, e⟩, fun e => hcol ⟨q, hq, e⟩, fun e => hbox ⟨q, hq, e⟩⟩

theorem cellFault?_eq_none_iff :
    cellFault? rows row col entry = none ↔
      (entry = '.' ∨ ('1' ≤ entry ∧ entry ≤ '9')) ∧
        ∀ p, placement? row col entry = some p → repeated? rows p = none := by
  unfold cellFault? placement?
  by_cases hdigit : '1' ≤ entry ∧ entry ≤ '9'
  · simp [hdigit]
  · simp [hdigit]

theorem rowFaults_eq_nil_iff :
    rowFaults rows row cells = [] ↔ cells.length = 9 ∧
      ∀ (col : Nat) entry, cells[col]? = some entry → cellFault? rows row col entry = none := by
  simp only [rowFaults, List.append_eq_nil_iff, List.filterMap_eq_nil_iff, Prod.forall,
    List.mem_zipIdx_iff_getElem?, ite_eq_left_iff, List.cons_ne_nil, imp_false, not_not]
  exact and_congr_right fun _ => forall_comm

theorem faults_eq_nil_iff_rows :
    faults rows = [] ↔
      ∀ (row : Nat) cells, rows[row]? = some cells → rowFaults rows row cells = [] := by
  simp only [faults, List.flatMap_eq_nil_iff, Prod.forall, List.mem_zipIdx_iff_getElem?]
  exact forall_comm

/-- One of two different givens comes before the other. -/
theorem before_or_before (hp : p ∈ givens rows) (hq : q ∈ givens rows) (hne : p ≠ q) :
    p.Before q.row q.col ∨ q.Before p.row p.col := by
  have hcell : ¬ (p.row = q.row ∧ p.col = q.col) := fun h => hne (eq_of_cell hp hq h.1 h.2)
  unfold Placement.Before
  omega

/-- The rows have no fault if they are flawless, and the other way round. -/
theorem faults_eq_nil_iff : faults rows = [] ↔ Flawless rows := by
  rw [faults_eq_nil_iff_rows]
  constructor
  · intro h
    have hcells : ∀ cells ∈ rows, ∃ row, rowFaults rows row cells = [] := fun cells hmem => by
      obtain ⟨row, hrow⟩ := List.getElem?_of_mem hmem
      exact ⟨row, h row cells hrow⟩
    -- the later one of two givens has no fault either
    have hlater : ∀ p ∈ givens rows, ∀ q ∈ givens rows, p.Before q.row q.col →
        p.digit = q.digit → p.row ≠ q.row ∧ p.col ≠ q.col ∧ p.box ≠ q.box := by
      intro p hp q hq hbefore hdigit
      obtain ⟨cells, entry, hline, hentry, hgiven⟩ := mem_givens.mp hq
      have hcell := (rowFaults_eq_nil_iff.mp (h q.row cells hline)).2 q.col entry hentry
      refine repeated?_eq_none_iff.mp ((cellFault?_eq_none_iff.mp hcell).2 q hgiven) p ?_
      exact List.mem_filter.mpr ⟨hp, decide_eq_true ⟨hbefore, hdigit⟩⟩
    refine ⟨fun cells hmem => ?_, fun cells hmem c hc => ?_, fun p hp q hq hne hdigit => ?_⟩
    · obtain ⟨row, hrow⟩ := hcells cells hmem
      exact (rowFaults_eq_nil_iff.mp hrow).1
    · obtain ⟨row, hrow⟩ := hcells cells hmem
      obtain ⟨col, hcol⟩ := List.getElem?_of_mem hc
      exact (cellFault?_eq_none_iff.mp ((rowFaults_eq_nil_iff.mp hrow).2 col c hcol)).1
    · rcases before_or_before hp hq hne with hbefore | hbefore
      · exact hlater p hp q hq hbefore hdigit
      · obtain ⟨hrow, hcol, hbox⟩ := hlater q hq p hp hbefore hdigit.symm
        exact ⟨hrow.symm, hcol.symm, hbox.symm⟩
  · intro h row cells hline
    have hmem := List.mem_of_getElem? hline
    refine rowFaults_eq_nil_iff.mpr ⟨h.width cells hmem, fun col entry hentry => ?_⟩
    refine cellFault?_eq_none_iff.mpr ⟨h.entry cells hmem entry (List.mem_of_getElem? hentry),
      fun p hp => repeated?_eq_none_iff.mpr fun q hq => ?_⟩
    obtain ⟨hrow, hcol, -⟩ := placement?_eq_some_iff.mp hp
    have hgiven : p ∈ givens rows := mem_givens.mpr ⟨cells, entry, hrow ▸ hline, hcol ▸ hentry,
      by rw [hrow, hcol, hp]⟩
    obtain ⟨hq, hbefore⟩ := List.mem_filter.mp hq
    obtain ⟨hbefore, hdigit⟩ := of_decide_eq_true hbefore
    refine h.once q hq p hgiven ?_ hdigit
    rintro rfl
    unfold Placement.Before at hbefore
    omega

end Givens

/-! ## Texts -/

section Texts

variable {lines rows rest : List (List Char)} {text : String}

/-- There is a verdict on every text. -/
theorem accepts_or_rejects (lines : List (List Char)) :
    (∃ rows rest, Accepts lines rows rest) ∨ ∃ e, Rejects lines e := by
  rcases layout_or_tooShort lines with hshort | ⟨rows, rest, hlayout⟩
  · exact Or.inr ⟨_, .tooShort hshort⟩
  · cases hfault : (faults rows).head? with
    | some e => exact Or.inr ⟨e, .fault hlayout hfault⟩
    | none =>
      have hflawless := faults_eq_nil_iff.mp (List.head?_eq_none_iff.mp hfault)
      cases hword : (tokens rest).find? fun s => s ∉ candidateNames with
      | some s => exact Or.inr ⟨_, .unknown hlayout hflawless hword⟩
      | none =>
        refine Or.inl ⟨rows, rest, hlayout, hflawless, fun s hs => ?_⟩
        simpa using List.find?_eq_none.mp hword s hs

theorem readRows_rows (rows : List (List Char)) :
    Reader.readRows 0 rows [] =
      (faults rows).head?.elim (.ok (givens rows).reverse) .error := by
  have hread := readRows_eq (seen_nil rows) (List.drop_zero (l := rows))
  rwa [List.append_nil] at hread

/-- A text with too few lines is reported as such. -/
theorem read_tooShort (h : TooShort (Reader.boardLines text)) :
    Reader.read text = .error (.notEnoughRows (Reader.boardLines text).length) := by
  rw [Reader.read, splitBoard_tooShort h]

/-- In any other text the first fault is reported, or the givens and the words are read. -/
theorem read_layout (h : Layout (Reader.boardLines text) rows rest) :
    Reader.read text = (faults rows).head?.elim (.ok ⟨givens rows, tokens rest⟩) .error := by
  rw [Reader.read, splitBoard_layout h]
  dsimp only
  rw [readRows_rows]
  cases (faults rows).head? with
  | some e => rfl
  | none =>
    simp only [Option.elim_none, List.reverse_reverse]
    rfl

/-- What is read is in flawless rows and the words after them. -/
theorem of_read_ok {d : Description} (h : Reader.read text = .ok d) :
    ∃ rows rest, Layout (Reader.boardLines text) rows rest ∧ Flawless rows ∧
      d = ⟨givens rows, tokens rest⟩ := by
  rcases layout_or_tooShort (Reader.boardLines text) with hshort | ⟨rows, rest, hlayout⟩
  · rw [read_tooShort hshort] at h
    cases h
  · rw [read_layout hlayout] at h
    cases hfault : (faults rows).head? with
    | some e =>
      rw [hfault] at h
      cases h
    | none =>
      rw [hfault] at h
      cases h
      exact ⟨rows, rest, hlayout, faults_eq_nil_iff.mp (List.head?_eq_none_iff.mp hfault), rfl⟩

theorem read_flawless (h : Layout (Reader.boardLines text) rows rest) (hrows : Flawless rows) :
    Reader.read text = .ok ⟨givens rows, tokens rest⟩ := by
  rw [read_layout h, faults_eq_nil_iff.mpr hrows]
  rfl

end Texts

end Grammar

end ExactCover.Sudoku
