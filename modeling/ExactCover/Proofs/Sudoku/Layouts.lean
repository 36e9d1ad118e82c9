/-
ExactCover.Proofs.Sudoku.Layouts — a board on one line and the same board on nine.

A text `Prints` contents if it has them on a line each, one below the other, with blanks
around them and blank lines before them, and then ends or goes on below. The reader cuts
a text into lines, trims these and drops the empty ones at the head, so all it has of such
a text are the contents and then the lines below, trimmed (`Prints.boardLines_eq`). So 81
characters on one line are the same rows of a board as their nine parts on a line each,
and what is below is the same words (`Reader.read_line_eq_read_rows`).
-/
import Mathlib.Data.List.Forall2
import ExactCover.Proofs.Sudoku.Grammar

namespace ExactCover

namespace Text

variable {s t content line after : List Char} {contents padded ls : List (List Char)}

/-! ## Lines -/

theorem splitAt_eq_splitOnP (p : Char → Bool) (s : List Char) : splitAt p s = s.splitOnP p := by
  induction s with
  | nil => rw [List.splitOnP_nil, splitAt]
  | cons c rest ih =>
    rw [splitAt, List.splitOnP_cons_eq_if_modifyHead, ih]
    refine if_congr Iff.rfl rfl ?_
    cases hparts : rest.splitOnP p with
    | nil => exact absurd hparts (List.splitOnP_ne_nil p rest)
    | cons part parts => rfl

/-- A text ends after a line, or goes on on the next one. -/
def EndsLine (after : List Char) : Prop := after = [] ∨ ∃ rest, after = '\n' :: rest

/-- Lines that are joined are told apart again, and what is below them is cut into lines of its
own. -/
theorem lines_intercalate (hls : ∀ l ∈ ls, '\n' ∉ l) (hlast : ∃ l, ls.getLast? = some l ∧ l ≠ [])
    (hafter : EndsLine after) :
    lines (['\n'].intercalate ls ++ after) = ls ++ lines after.tail := by
  obtain ⟨last, hlast, hne⟩ := hlast
  have hsome : ls ≠ [] := by
    rintro rfl
    cases hlast
  have hparts : splitAt (· == '\n') (['\n'].intercalate ls) = ls := by
    rw [splitAt_eq_splitOnP]
    exact List.splitOn_intercalate '\n' hls hsome
  rcases hafter with rfl | ⟨rest, rfl⟩
  · rw [List.append_nil, lines, hparts, hlast, if_neg fun h => hne (Option.some.inj h)]
    exact (List.append_nil ls).symm
  · have hbelow := splitAt_ne_nil (· == '\n') rest
    have hsplit : splitAt (· == '\n') (['\n'].intercalate ls ++ '\n' :: rest) =
        ls ++ splitAt (· == '\n') rest := by
      simp only [splitAt_eq_splitOnP] at hparts ⊢
      rw [List.splitOnP_append_cons (p := (· == '\n')) _ _ (beq_self_eq_true '\n'), hparts]
    rw [lines, hsplit, List.getLast?_append_of_ne_nil ls hbelow,
      List.dropLast_append_of_ne_nil hbelow, List.tail_cons, lines, apply_ite (ls ++ ·)]

/-! ## Blanks around a line -/

/-- Blanks that do not end a line. -/
def Spaces (s : List Char) : Prop := ∀ c ∈ s, isBlank c = true ∧ c ≠ '\n'

/-- Characters that are no blanks, one at least. -/
def Solid (s : List Char) : Prop := s ≠ [] ∧ ∀ c ∈ s, isBlank c = false

/-- The line is this content with blanks around it. -/
def Pads (content line : List Char) : Prop :=
  ∃ left right, Spaces left ∧ Spaces right ∧ line = left ++ content ++ right

theorem Spaces.dropWhile_append (h : Spaces s) (t : List Char) :
    (s ++ t).dropWhile isBlank = t.dropWhile isBlank :=
  List.dropWhile_append_of_pos fun c hc => (h c hc).1

theorem Spaces.reverse (h : Spaces s) : Spaces s.reverse := fun c hc => h c (List.mem_reverse.mp hc)

theorem Spaces.not_mem_newline (h : Spaces s) : '\n' ∉ s := fun hmem => (h '\n' hmem).2 rfl

theorem Spaces.trim_eq (h : Spaces s) : trim s = [] := by
  have hnone := h.dropWhile_append []
  rw [List.append_nil] at hnone
  rw [trim, hnone]
  rfl

theorem Solid.dropWhile_append (h : Solid s) (t : List Char) :
    (s ++ t).dropWhile isBlank = s ++ t := by
  obtain ⟨hne, hsolid⟩ := h
  obtain ⟨c, rest, rfl⟩ := List.exists_cons_of_ne_nil hne
  rw [List.cons_append, List.dropWhile_cons, hsolid c List.mem_cons_self,
    if_neg Bool.false_ne_true]

theorem Solid.reverse (h : Solid s) : Solid s.reverse :=
  ⟨fun hnil => h.1 (List.reverse_eq_nil_iff.mp hnil), fun c hc => h.2 c (List.mem_reverse.mp hc)⟩

/-- Trimming takes off the blanks around a content. -/
theorem Pads.trim_eq (h : Pads content line) (hsolid : Solid content) : trim line = content := by
  obtain ⟨left, right, hleft, hright, rfl⟩ := h
  have hback := hsolid.reverse.dropWhile_append []
  rw [List.append_nil] at hback
  rw [trim, List.append_assoc, hleft.dropWhile_append, hsolid.dropWhile_append,
    List.reverse_append, hright.reverse.dropWhile_append, hback, List.reverse_reverse]

theorem Pads.not_mem_newline (h : Pads content line) (hsolid : Solid content) : '\n' ∉ line := by
  obtain ⟨left, right, hleft, hright, rfl⟩ := h
  have hnone : '\n' ∉ content := fun hmem => absurd (hsolid.2 '\n' hmem) (by decide)
  simp only [List.mem_append, not_or]
  exact ⟨⟨hleft.not_mem_newline, hnone⟩, hright.not_mem_newline⟩

theorem Pads.ne_nil (h : Pads content line) (hsolid : Solid content) : line ≠ [] := by
  obtain ⟨left, right, -, -, rfl⟩ := h
  simp [hsolid.1]

/-- Padded lines are lines of their own, and their contents are found by trimming. -/
theorem padded_facts (h : List.Forall₂ Pads contents padded) (hsolid : ∀ s ∈ contents, Solid s) :
    padded.map trim = contents ∧ ∀ l ∈ padded, '\n' ∉ l ∧ l ≠ [] := by
  induction h with
  | nil => exact ⟨rfl, by simp⟩
  | cons hpads _ ih =>
    obtain ⟨hfirst, hrest⟩ := List.forall_mem_cons.mp hsolid
    obtain ⟨htrim, hlines⟩ := ih hrest
    exact ⟨by rw [List.map_cons, hpads.trim_eq hfirst, htrim], List.forall_mem_cons.mpr
      ⟨⟨hpads.not_mem_newline hfirst, hpads.ne_nil hfirst⟩, hlines⟩⟩

end Text

namespace Sudoku

open Text (Spaces Solid Pads EndsLine)

/-! ## Printed texts -/

/-- The text has blank lines, then these contents on a line each with blanks around them, and then
ends or goes on below. -/
def Prints (text : String) (contents : List (List Char)) (after : List Char) : Prop :=
  ∃ blank padded, (∀ l ∈ blank, Spaces l) ∧ List.Forall₂ Pads contents padded ∧ EndsLine after ∧
    text.toList = ['\n'].intercalate (blank ++ padded) ++ after

/-- The lines below, trimmed. -/
def linesBelow (after : List Char) : List (List Char) := (Text.lines after.tail).map Text.trim

/-- All that the reader has of the text are the contents and the lines below. -/
theorem Prints.boardLines_eq {text : String} {contents : List (List Char)} {after : List Char}
    (h : Prints text contents after) (hsome : contents ≠ []) (hsolid : ∀ s ∈ contents, Solid s) :
    Reader.boardLines text = contents ++ linesBelow after := by
  obtain ⟨blank, padded, hblank, hpadded, hafter, htext⟩ := h
  obtain ⟨htrim, hlines⟩ := Text.padded_facts hpadded hsolid
  have hnonempty : padded ≠ [] := by
    rintro rfl
    exact hsome htrim.symm
  have hcut : Text.lines text.toList = blank ++ padded ++ Text.lines after.tail := by
    rw [htext]
    refine Text.lines_intercalate (fun l hl => ?_) ⟨padded.getLast hnonempty, ?_, ?_⟩ hafter
    · rcases List.mem_append.mp hl with hl | hl
      · exact (hblank l hl).not_mem_newline
      · exact (hlines l hl).1
    · rw [List.getLast?_append_of_ne_nil blank hnonempty, List.getLast?_eq_some_getLast]
    · exact (hlines _ (List.getLast_mem hnonempty)).2
  have hempty : ∀ l ∈ blank.map Text.trim, l.isEmpty = true := by
    intro l hl
    obtain ⟨s, hs, rfl⟩ := List.mem_map.mp hl
    rw [(hblank s hs).trim_eq]
    rfl
  obtain ⟨first, rest, rfl⟩ := List.exists_cons_of_ne_nil hsome
  have hfirst : first.isEmpty = false :=
    List.isEmpty_eq_false_iff.mpr (hsolid first List.mem_cons_self).1
  rw [Reader.boardLines, hcut, List.append_assoc, List.map_append, List.map_append, htrim,
    List.dropWhile_append_of_pos hempty, List.cons_append, List.dropWhile_cons, hfirst,
    if_neg Bool.false_ne_true]
  rfl

/-! ## One line or nine -/

/-- A board on one line, row by row. -/
def slices (cells : List Char) : List (List Char) :=
  (List.range 9).map fun row => (cells.drop (row * 9)).take 9

section Slices

variable {cells : List Char} {text : String} {after : List Char}

theorem length_slices (hlength : cells.length = 81) : ∀ s ∈ slices cells, s.length = 9 := by
  intro s hs
  obtain ⟨row, hrow, rfl⟩ := List.mem_map.mp hs
  have hrow := List.mem_range.mp hrow
  rw [List.length_take, List.length_drop]
  omega

theorem solid_slices (hlength : cells.length = 81) (hcells : ∀ c ∈ cells, Text.isBlank c = false) :
    ∀ s ∈ slices cells, Solid s := by
  intro s hs
  have hnine := length_slices hlength s hs
  refine ⟨List.ne_nil_of_length_pos (by omega), fun c hc => hcells c ?_⟩
  obtain ⟨row, -, rfl⟩ := List.mem_map.mp hs
  exact List.mem_of_mem_drop (List.mem_of_mem_take hc)

/-- A text with the board on one line has its parts as rows. -/
theorem Prints.layout_line (h : Prints text [cells] after) (hlength : cells.length = 81)
    (hcells : ∀ c ∈ cells, Text.isBlank c = false) :
    Grammar.Layout (Reader.boardLines text) (slices cells) (linesBelow after) := by
  have hsome : cells ≠ [] := List.ne_nil_of_length_pos (by omega)
  rw [h.boardLines_eq (List.cons_ne_nil _ _) (by simpa using ⟨hsome, hcells⟩)]
  exact .line hlength

/-- A text with these parts on nine lines has them as rows too. -/
theorem Prints.layout_rows (h : Prints text (slices cells) after) (hlength : cells.length = 81)
    (hcells : ∀ c ∈ cells, Text.isBlank c = false) :
    Grammar.Layout (Reader.boardLines text) (slices cells) (linesBelow after) := by
  have hnine := length_slices hlength
  have hsolid := solid_slices hlength hcells
  have height : (slices cells).length = 9 := by rw [slices, List.length_map, List.length_range]
  have hsome : slices cells ≠ [] := List.ne_nil_of_length_pos (by omega)
  rw [h.boardLines_eq hsome hsolid]
  obtain ⟨first, more, heq⟩ := List.exists_cons_of_ne_nil hsome
  rw [heq] at hnine height ⊢
  have hfirst := hnine first List.mem_cons_self
  exact .rows (by omega) (Nat.succ.inj height)

end Slices

/-- A board of 81 characters, whatever they are, is read from one line as it is read from nine:
there is the same fault with the same row, column and character, or there are the same givens, and
the same words below. -/
theorem Reader.read_line_eq_read_rows {cells after : List Char} (hlength : cells.length = 81)
    (hcells : ∀ c ∈ cells, Text.isBlank c = false) {line rows : String}
    (hline : Prints line [cells] after) (hrows : Prints rows (slices cells) after) :
    read line = read rows ∧
      read rows = (Grammar.faults (slices cells)).head?.elim
        (.ok ⟨Grammar.givens (slices cells), Grammar.tokens (linesBelow after)⟩) .error := by
  have hverdict := Grammar.read_layout (hrows.layout_rows hlength hcells)
  exact ⟨(Grammar.read_layout (hline.layout_line hlength hcells)).trans hverdict.symm, hverdict⟩

/-! ## A board with a letter in its middle -/

section Sample

def letteredCells : List Char := List.replicate 40 '.' ++ 'x' :: List.replicate 40 '.'

/-- The board on one line. -/
def letteredLine : String := "\n".intercalate ["", "\t",
  "........................................x........................................", "r0c0d1"]

/-- The board on nine lines, each with a blank before it and a carriage return behind it. -/
def letteredRows : String := "\n".intercalate
  [" .........\r", " .........\r", " .........\r", " .........\r", " ....x....\r", " .........\r",
    " .........\r", " .........\r", " .........\r", "r0c0d1"]

theorem prints_letteredLine : Prints letteredLine [letteredCells] "\nr0c0d1".toList := by
  refine ⟨[[], ['\t']], [letteredCells], ?_, .cons ?_ .nil, Or.inr ⟨_, rfl⟩, by decide +kernel⟩
  · simp [Spaces, Text.isBlank]
  · exact ⟨[], [], nofun, nofun, rfl⟩

theorem prints_letteredRows : Prints letteredRows (slices letteredCells) "\nr0c0d1".toList := by
  have hblank : Spaces [' '] ∧ Spaces ['\r'] := by simp [Spaces, Text.isBlank]
  refine ⟨[], (slices letteredCells).map fun s => [' '] ++ s ++ ['\r'], nofun, ?_, Or.inr ⟨_, rfl⟩,
    by decide +kernel⟩
  exact List.forall₂_map_right_iff.mpr (List.forall₂_same.mpr fun s _ =>
    ⟨[' '], ['\r'], hblank.1, hblank.2, rfl⟩)

theorem Reader.read_line_eq_read_rows_lettered :
    read letteredLine = .error (.invalidEntry 4 4 'x') ∧
      read letteredRows = .error (.invalidEntry 4 4 'x') := by
  have hfault : (Grammar.faults (slices letteredCells)).head? =
      some (.invalidEntry 4 4 'x') := by decide +kernel
  have hcells : ∀ c ∈ letteredCells, Text.isBlank c = false := by
    simp [letteredCells, Text.isBlank]
  obtain ⟨hsame, hverdict⟩ := Reader.read_line_eq_read_rows (by decide) hcells
    prints_letteredLine prints_letteredRows
  rw [hfault] at hverdict
  exact ⟨hsame.trans hverdict, hverdict⟩

end Sample

end Sudoku

end ExactCover
