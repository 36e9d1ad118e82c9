/-
ExactCover.Proofs.Sudoku.Reading — what a text that is read says.

`Gives` and `Rejects` say it of the text itself: a placement is given if its digit
stands where its cell is, in the first line if that holds the whole board and else in
the line of its row, and it is rejected if its name is one of the words after the
board. The layout of the text tells where that is (`entryAt_layout`, `drop_layout`), so
a text that is read has these givens and these names (`read_ok`).
-/
import ExactCover.Proofs.Sudoku.Grammar

namespace ExactCover.Sudoku

namespace Reader

/-- How many lines the board takes. -/
def height : List (List Char) → Nat
  | [] => 0
  | first :: _ => if first.length = 81 then 1 else 9

/-- What stands in a cell of the board. -/
def entryAt : List (List Char) → Nat → Nat → Option Char
  | [], _, _ => none
  | first :: rest, row, col =>
    if first.length = 81 then first[row * 9 + col]?
    else (first :: rest)[row]?.bind fun cells => cells[col]?

/-- The words after the board. -/
def wordsAfter (lines : List (List Char)) : List (List Char) :=
  (lines.drop (height lines)).flatMap Text.words

/-- The digit stands in the cell. -/
def Gives (text : String) (p : Placement) : Prop :=
  p.OnBoard ∧ entryAt (boardLines text) p.row p.col = some (Nat.digitChar p.digit)

/-- The name is a word after the board. -/
def Rejects (text : String) (p : Placement) : Prop :=
  p.name.toList ∈ wordsAfter (boardLines text)

/-! ## Layouts -/

section Layouts

variable {lines rows rest : List (List Char)}

/-- The rows of the board show what stands in it. -/
theorem entryAt_layout (h : Grammar.Layout lines rows rest) {row col : Nat} (hrow : row < 9)
    (hcol : col < 9) :
    entryAt lines row col = rows[row]?.bind fun cells => cells[col]? := by
  cases h with
  | line hline =>
    rw [entryAt, if_pos hline, List.getElem?_map, List.getElem?_range hrow, Option.map_some,
      Option.bind_some, List.getElem?_take_of_lt hcol, List.getElem?_drop]
  | @rows first more rest hline hheight =>
    have hshort : row < (first :: more).length := by
      rw [List.length_cons]
      omega
    rw [entryAt, if_neg hline, ← List.cons_append, List.getElem?_append_left hshort]

/-- The lines after the board are left. -/
theorem drop_layout (h : Grammar.Layout lines rows rest) : lines.drop (height lines) = rest := by
  cases h with
  | line hline =>
    rw [height, if_pos hline]
    rfl
  | rows hline hheight =>
    rw [height, if_neg hline, List.drop_succ_cons, ← hheight, List.drop_left]

end Layouts

/-- A text that is read says what is given and what is rejected. -/
theorem read_ok {text : String} {d : Description} (h : read text = .ok d) :
    (∀ p, p ∈ d.givens ↔ Gives text p) ∧
      ∀ p : Placement, p.name ∈ d.eliminations ↔ Rejects text p := by
  obtain ⟨rows, rest, hlayout, hrows, rfl⟩ := Grammar.of_read_ok h
  refine ⟨fun p => ?_, fun p => ?_⟩
  · constructor
    · intro hp
      have honBoard := Grammar.onBoard_givens hlayout.length_rows hrows.width hp
      obtain ⟨cells, entry, hcells, hentry, hdigit⟩ := Grammar.mem_givens.mp hp
      obtain ⟨-, -, -, -, rfl⟩ := Grammar.placement?_eq_some_iff.mp hdigit
      refine ⟨honBoard, ?_⟩
      rw [entryAt_layout hlayout honBoard.row honBoard.col, hcells]
      exact hentry
    · intro hp
      obtain ⟨honBoard, hp⟩ := hp
      rw [entryAt_layout hlayout honBoard.row honBoard.col] at hp
      obtain ⟨cells, hcells, hentry⟩ := Option.bind_eq_some_iff.mp hp
      obtain ⟨-, -, hpos, hle⟩ := honBoard
      exact Grammar.mem_givens.mpr ⟨cells, _, hcells, hentry,
        Grammar.placement?_eq_some_iff.mpr ⟨rfl, rfl, hpos, hle, rfl⟩⟩
  · rw [Rejects, wordsAfter, drop_layout hlayout]
    show p.name ∈ Grammar.tokens rest ↔ _
    rw [Grammar.tokens, List.mem_map]
    constructor
    · rintro ⟨word, hword, heq⟩
      rwa [← heq, String.toList_ofList]
    · exact fun hword => ⟨_, hword, String.ofList_toList⟩

end Reader

end ExactCover.Sudoku
