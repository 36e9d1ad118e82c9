/-
ExactCover.Proofs.Sudoku.Encoding — the matrix of the empty board.

A placement on the board is candidate number `Placement.number`, and it satisfies the
constraints number `Placement.constraintNumbers`: numbers are counted off by the order
in which the board is built. All names are different, because the letters that begin
them and their digits tell them apart, so every addition succeeds, and the empty board
is `board` (`Puzzle.empty_eq`).

`Encodes` says what there is to know about it: all constraints are primary, the
candidates are the placements on the board, found by their names, and each satisfies its
four constraints. That is a matter of the board and so stays true when candidates are
placed or eliminated.
-/
import ExactCover.Proofs.Givens
import ExactCover.Proofs.Names
import ExactCover.Sudoku.Puzzle

namespace ExactCover.Sudoku

open ExactCover.Matrix (NewConstraint NewCandidate)

/-! ## Numbers -/

namespace Placement

/-- Row, column and digit are those of the board. -/
structure OnBoard (p : Placement) : Prop where
  row : p.row < 9
  col : p.col < 9
  digit_pos : 1 ≤ p.digit
  digit : p.digit ≤ 9

/-- The number of the candidate. -/
def number (p : Placement) : Nat := p.col * 81 + p.row * 9 + p.digit

/-- The numbers of its constraints. -/
def constraintNumbers (p : Placement) : List Nat :=
  [p.row * 9 + p.col + 1, 81 + (p.row * 9 + p.digit), 162 + (p.col * 9 + p.digit),
    243 + (p.box * 9 + p.digit)]

end Placement

/-- The placement of a number. -/
def placementAt (r : Nat) : Placement where
  row := (r - 1) / 9 % 9
  col := (r - 1) / 81
  digit := (r - 1) % 9 + 1

section Numbers

variable {p q : Placement} {r : Nat}

theorem Placement.OnBoard.number_bounds (h : p.OnBoard) : 1 ≤ p.number ∧ p.number ≤ 729 := by
  obtain ⟨hrow, hcol, hpos, hdigit⟩ := h
  unfold number
  omega

theorem Placement.OnBoard.placementAt_number (h : p.OnBoard) : placementAt p.number = p := by
  obtain ⟨row, col, digit⟩ := p
  obtain ⟨hrow, hcol, hpos, hdigit⟩ := h
  simp only [placementAt, number, mk.injEq] at *
  omega

theorem onBoard_placementAt (hr : 1 ≤ r ∧ r ≤ 729) : (placementAt r).OnBoard := by
  refine ⟨?_, ?_, ?_, ?_⟩ <;> simp only [placementAt] <;> omega

theorem number_placementAt (hr : 1 ≤ r ∧ r ≤ 729) : (placementAt r).number = r := by
  simp only [placementAt, Placement.number]
  omega

theorem number_injective (hp : p.OnBoard) (hq : q.OnBoard)
    (h : p.number = q.number) : p = q := by
  rw [← hp.placementAt_number, h, hq.placementAt_number]

theorem Placement.OnBoard.box_eq (h : p.OnBoard) : p.box = p.row / 3 * 3 + p.col / 3 := by
  obtain ⟨hrow, hcol, -, -⟩ := h
  unfold box
  omega

theorem Placement.OnBoard.box_lt (h : p.OnBoard) : p.box < 9 := by
  rw [h.box_eq]
  obtain ⟨hrow, hcol, -, -⟩ := h
  omega

theorem Placement.OnBoard.constraintNumbers_bounds (h : p.OnBoard) :
    ∀ c ∈ p.constraintNumbers, 1 ≤ c ∧ c ≤ 324 := by
  have hbox := h.box_lt
  obtain ⟨hrow, hcol, hpos, hdigit⟩ := h
  simp only [constraintNumbers, List.forall_mem_cons, List.not_mem_nil, false_imp_iff,
    implies_true, and_true]
  omega

theorem Placement.OnBoard.constraintNumbers_ascending (h : p.OnBoard) :
    p.constraintNumbers.Pairwise (· < ·) := by
  have hbox := h.box_lt
  obtain ⟨hrow, hcol, hpos, hdigit⟩ := h
  simp only [constraintNumbers, List.pairwise_cons, List.forall_mem_cons, List.not_mem_nil,
    false_imp_iff, implies_true, List.Pairwise.nil, and_true]
  omega

theorem boardPlacements_eq : boardPlacements = (List.range' 1 729).map placementAt := by
  decide +kernel

theorem mem_boardPlacements : p ∈ boardPlacements ↔ p.OnBoard := by
  rw [boardPlacements_eq, List.mem_map]
  constructor
  · intro h'
    obtain ⟨r, hr, rfl⟩ := h'
    rw [List.mem_range'_1] at hr
    exact onBoard_placementAt (by omega)
  · intro h
    have hbounds := h.number_bounds
    exact ⟨p.number, List.mem_range'_1.mpr (by omega), h.placementAt_number⟩

end Numbers

/-! ## Names -/

/-- The name of the constraint with the number `i + 1`. -/
def unitName (i : Nat) : String :=
  match i / 81 with
  | 0 => cellName (i / 9 % 9) (i % 9)
  | 1 => rowName (i / 9 % 9) (i % 9 + 1)
  | 2 => columnName (i / 9 % 9) (i % 9 + 1)
  | _ => boxName (i / 9 % 9) (i % 9 + 1)

/-- The kind of the constraint with the number `i + 1`. -/
def unitKind (i : Nat) : Kind :=
  match i / 81 with
  | 0 => .cell
  | 1 => .row
  | 2 => .column
  | _ => .box

theorem boardConstraints_eq :
    boardConstraints = (List.range 324).map fun i => (unitName i, unitKind i) := by
  decide +kernel

theorem digitChar_injective {d e : Nat} (hd : d < 10) (he : e < 10)
    (h : Nat.digitChar d = Nat.digitChar e) : d = e := by
  have hall : ∀ d < 10, ∀ e < 10, Nat.digitChar d = Nat.digitChar e → d = e := by decide
  exact hall d hd e he h

/-- A letter and two digits. -/
theorem toList_name (letter : Char) {d e : Nat} (hd : d < 10) (he : e < 10) :
    (String.singleton letter ++ toString d ++ toString e).toList =
      [letter, Nat.digitChar d, Nat.digitChar e] := by
  simp [String.toList_append, Nat.toDigits_of_lt_base hd, Nat.toDigits_of_lt_base he]

/-- The letter with which the name of a constraint begins, and its digits. -/
theorem toList_unitName {i : Nat} (hi : i < 324) :
    (unitName i).toList = [['p', 'r', 'c', 'b'].getD (i / 81) 'b', Nat.digitChar (i / 9 % 9),
      Nat.digitChar (if i / 81 = 0 then i % 9 else i % 9 + 1)] := by
  have hkind : i / 81 = 0 ∨ i / 81 = 1 ∨ i / 81 = 2 ∨ i / 81 = 3 := by omega
  have ha : i / 9 % 9 < 10 := by omega
  have hb : i % 9 < 10 := by omega
  have hb' : i % 9 + 1 < 10 := by omega
  unfold unitName
  rcases hkind with hk | hk | hk | hk
  · rw [hk]
    exact toList_name 'p' ha hb
  · rw [hk]
    exact toList_name 'r' ha hb'
  · rw [hk]
    exact toList_name 'c' ha hb'
  · rw [hk]
    exact toList_name 'b' ha hb'

theorem unitName_injective {i j : Nat} (hi : i < 324) (hj : j < 324)
    (h : unitName i = unitName j) : i = j := by
  have hlists := congrArg String.toList h
  rw [toList_unitName hi, toList_unitName hj] at hlists
  simp only [List.cons.injEq, and_true] at hlists
  obtain ⟨hletter, hfirst, hsecond⟩ := hlists
  have hletters : ∀ a < 4, ∀ b < 4, ['p', 'r', 'c', 'b'].getD a 'b' =
      ['p', 'r', 'c', 'b'].getD b 'b' → a = b := by decide
  have hkind := hletters (i / 81) (by omega) (j / 81) (by omega) hletter
  have ha := digitChar_injective (by omega) (by omega) hfirst
  have hb := digitChar_injective (by split <;> omega) (by split <;> omega) hsecond
  rw [hkind] at hb
  split at hb
  · omega
  · omega

theorem toList_placementName {p : Placement} (h : p.OnBoard) :
    p.name.toList = ['r', Nat.digitChar p.row, 'c', Nat.digitChar p.col, 'd',
      Nat.digitChar p.digit] := by
  obtain ⟨hrow, hcol, -, hdigit⟩ := h
  have hname : p.name = String.singleton 'r' ++ toString p.row ++ String.singleton 'c' ++
      toString p.col ++ String.singleton 'd' ++ toString p.digit := rfl
  have ha : p.row < 10 := by omega
  have hb : p.col < 10 := by omega
  have hc : p.digit < 10 := by omega
  simp [hname, String.toList_append, Nat.toDigits_of_lt_base ha, Nat.toDigits_of_lt_base hb,
    Nat.toDigits_of_lt_base hc]

theorem placementName_injective {p q : Placement} (hp : p.OnBoard) (hq : q.OnBoard)
    (h : p.name = q.name) : p = q := by
  have hlists := congrArg String.toList h
  rw [toList_placementName hp, toList_placementName hq] at hlists
  simp only [List.cons.injEq, and_true, true_and] at hlists
  obtain ⟨hrow, hcol, hdigit⟩ := hlists
  have h1 := hp.row
  have h2 := hp.col
  have h3 := hp.digit
  have h4 := hq.row
  have h5 := hq.col
  have h6 := hq.digit
  cases p
  cases q
  simp only [Placement.mk.injEq] at *
  exact ⟨digitChar_injective (by omega) (by omega) hrow,
    digitChar_injective (by omega) (by omega) hcol,
    digitChar_injective (by omega) (by omega) hdigit⟩

/-! ## The matrix -/

/-- The constraints of the board. -/
def newConstraints : List NewConstraint :=
  boardConstraints.map fun c => ⟨c.1, c.2, true⟩

/-- The candidates of the board. -/
def newCandidates : List (NewCandidate Placement) :=
  boardPlacements.map fun p => ⟨p.name, p, p.constraintNumbers⟩

/-- The constraints of the board without candidates. -/
def frame : Matrix Placement := Matrix.empty.constrainedAll newConstraints

/-- The matrix of the empty board. -/
def board : Matrix Placement := frame.peopledAll newCandidates

theorem addConstraints_eq {m : Matrix Placement} (h : m.Built) {cs : List (String × Kind)}
    (hnodup : (cs.map (·.1)).Nodup) (hnew : ∀ c ∈ cs, m.constraintByName? c.1 = none) :
    addConstraints m cs = .ok (m.constrainedAll (cs.map fun c => ⟨c.1, c.2, true⟩)) := by
  induction cs generalizing m with
  | nil => rfl
  | cons c cs ih =>
    obtain ⟨hfirst, hrest⟩ := List.nodup_cons.mp hnodup
    have hc := hnew c List.mem_cons_self
    have hadd := Matrix.addConstraint_eq c.2 true hc
    unfold addConstraints
    simp only [hadd]
    refine ih (h.with_constraint c.1 c.2 true hc) hrest fun d hd => ?_
    have hne : c.1 ≠ d.1 := fun heq => hfirst (List.mem_map.mpr ⟨d, hd, heq.symm⟩)
    exact Matrix.constraintByName?_constrained_none h.named.cells_pos c.2 true
      (hnew d (List.mem_cons_of_mem c hd)) hne

theorem addPlacements_eq {m : Matrix Placement} {ps : List Placement}
    (hnodup : (ps.map (·.name)).Nodup) (hnew : ∀ p ∈ ps, m.candidateByName? p.name = none)
    (hnames : ∀ p ∈ ps, p.constraintNames.map m.constraintByName? = p.constraintNumbers.map some)
    (hboard : ∀ p ∈ ps, p.OnBoard) :
    addPlacements m ps =
      .ok (m.peopledAll (ps.map fun p => ⟨p.name, p, p.constraintNumbers⟩)) := by
  induction ps generalizing m with
  | nil => rfl
  | cons p ps ih =>
    obtain ⟨hfirst, hrest⟩ := List.nodup_cons.mp hnodup
    have hsome : p.constraintNumbers ≠ [] := List.cons_ne_nil _ _
    have hadd := Matrix.addCandidate_eq p (hnew p List.mem_cons_self) (hnames p List.mem_cons_self)
      hsome (hboard p List.mem_cons_self).constraintNumbers_ascending
    unfold addPlacements
    simp only [hadd]
    refine ih hrest (fun q hq => ?_) (fun q hq => ?_)
      fun q hq => hboard q (List.mem_cons_of_mem p hq)
    · have hne : p.name ≠ q.name := fun heq => hfirst (List.mem_map.mpr ⟨q, hq, heq.symm⟩)
      exact Matrix.candidateByName?_peopled_none p hsome (hnew q (List.mem_cons_of_mem p hq)) hne
    · rw [Matrix.constraintByName?_peopled]
      exact hnames q (List.mem_cons_of_mem p hq)

theorem constraintByName?_empty (name : String) :
    (Matrix.empty : Matrix Placement).constraintByName? name = none := by
  simp [Matrix.constraintByName?, Matrix.empty, Board.empty, Constraint.root]

theorem nodup_constraintNames : (boardConstraints.map (·.1)).Nodup := by
  rw [boardConstraints_eq, List.map_map]
  refine List.nodup_range.map_on fun i hi j hj heq => ?_
  exact unitName_injective (List.mem_range.mp hi) (List.mem_range.mp hj) heq

theorem nodup_candidateNames : (boardPlacements.map (·.name)).Nodup := by
  have hnodup : boardPlacements.Nodup := by
    rw [boardPlacements_eq]
    refine List.Nodup.map_on (fun i hi j hj heq => ?_) (List.nodup_range' (s := 1) (n := 729))
    rw [List.mem_range'_1] at hi hj
    have hi : 1 ≤ i ∧ i ≤ 729 := by omega
    have hj : 1 ≤ j ∧ j ≤ 729 := by omega
    rw [← number_placementAt hi, heq, number_placementAt hj]
  refine hnodup.map_on fun p hp q hq heq => ?_
  exact placementName_injective (mem_boardPlacements.mp hp) (mem_boardPlacements.mp hq) heq

theorem built_frame : frame.Built := by
  refine Matrix.Built.empty.constrainedAll ?_ fun c _ => constraintByName?_empty c.name
  rw [newConstraints, List.map_map]
  exact nodup_constraintNames

theorem size_frame : frame.board.constraints.size = 325 := by
  rw [frame, Matrix.size_constrainedAll, newConstraints, List.length_map, boardConstraints_eq,
    List.length_map, List.length_range]
  rfl

theorem hasConstraint_frame {c : Nat} : frame.HasConstraint c ↔ 1 ≤ c ∧ c ≤ 324 := by
  rw [Matrix.HasConstraint, size_frame]
  omega

theorem constraint_frame {i : Nat} (hi : i < 324) :
    frame.constraintName (i + 1) = unitName i ∧ frame.isPrimary (i + 1) = true := by
  have hentry : newConstraints[i]? = some ⟨unitName i, unitKind i, true⟩ := by
    rw [newConstraints, boardConstraints_eq, List.map_map, List.getElem?_map,
      List.getElem?_range hi]
    rfl
  obtain ⟨head, hrecord⟩ := Matrix.constraint_constrainedAll (m := Matrix.empty) hentry
  have hsize : (Matrix.empty : Matrix Placement).board.constraints.size + i = i + 1 :=
    Nat.add_comm 1 i
  rw [hsize] at hrecord
  rw [Matrix.constraintName, Matrix.isPrimary, frame, hrecord]
  exact ⟨rfl, rfl⟩

theorem unitName_eq (kind : Nat) {a b : Nat} (ha : a < 9) (hb : b < 9) :
    unitName (kind * 81 + (a * 9 + b)) =
      match kind with
      | 0 => cellName a b
      | 1 => rowName a (b + 1)
      | 2 => columnName a (b + 1)
      | _ => boxName a (b + 1) := by
  have hkind : (kind * 81 + (a * 9 + b)) / 81 = kind := by omega
  have hfirst : (kind * 81 + (a * 9 + b)) / 9 % 9 = a := by omega
  have hsecond : (kind * 81 + (a * 9 + b)) % 9 = b := by omega
  rw [unitName, hkind, hfirst, hsecond]

/-- The names of the constraints of a placement belong to their numbers. -/
theorem Placement.OnBoard.map_unitName {p : Placement} (h : p.OnBoard) :
    p.constraintNumbers.map (fun c => unitName (c - 1)) = p.constraintNames := by
  have hbox := h.box_lt
  obtain ⟨hrow, hcol, hpos, hdigit⟩ := h
  obtain ⟨b, hb⟩ : ∃ b, p.digit = b + 1 := ⟨p.digit - 1, (Nat.sub_add_cancel hpos).symm⟩
  have hlt : b < 9 := by omega
  have hnumbers : p.constraintNumbers =
      [0 * 81 + (p.row * 9 + p.col) + 1, 1 * 81 + (p.row * 9 + b) + 1,
        2 * 81 + (p.col * 9 + b) + 1, 3 * 81 + (p.box * 9 + b) + 1] := by
    simp only [constraintNumbers, hb, List.cons.injEq, and_true]
    omega
  simp only [hnumbers, List.map_cons, List.map_nil, Nat.add_sub_cancel, unitName_eq _ hrow hcol,
    unitName_eq _ hrow hlt, unitName_eq _ hcol hlt, unitName_eq _ hbox hlt, constraintNames, hb]

theorem Placement.OnBoard.map_constraintByName? {p : Placement} (h : p.OnBoard) :
    p.constraintNames.map frame.constraintByName? = p.constraintNumbers.map some := by
  have hknown : ∀ c ∈ p.constraintNumbers, frame.HasConstraint c := fun c hc =>
    hasConstraint_frame.mpr (h.constraintNumbers_bounds c hc)
  rw [← built_frame.named.map_constraintByName? hknown, ← h.map_unitName]
  refine congrArg (List.map _) (List.map_congr_left fun c hc => ?_)
  obtain ⟨hpos, hle⟩ := h.constraintNumbers_bounds c hc
  have hname := (constraint_frame (i := c - 1) (by omega)).1
  rwa [Nat.sub_add_cancel hpos, eq_comm] at hname

theorem candidateByName?_frame (name : String) : frame.candidateByName? name = none := by
  have hempty : (Matrix.empty : Matrix Placement).candidateByName? name = none := by
    simp [Matrix.candidateByName?, Matrix.empty, Board.empty, Candidate.root]
  rwa [Matrix.candidateByName?, frame, Matrix.candidates_constrainedAll]

theorem fitFor_frame : ∀ r ∈ newCandidates, r.FitFor frame := by
  intro r hr
  obtain ⟨p, hp, rfl⟩ := List.mem_map.mp hr
  have hboard := mem_boardPlacements.mp hp
  exact ⟨List.cons_ne_nil _ _, fun c hc => hasConstraint_frame.mpr
    (hboard.constraintNumbers_bounds c hc), hboard.constraintNumbers_ascending⟩

theorem built_board : board.Built := by
  refine built_frame.peopledAll ?_ (fun r _ => candidateByName?_frame r.name) fitFor_frame
  rw [newCandidates, List.map_map]
  exact nodup_candidateNames

theorem Puzzle.assemble_eq {m n : Matrix Placement} {cs : List (String × Kind)}
    {ps : List Placement} (hm : addConstraints .empty cs = .ok m)
    (hn : addPlacements m ps = .ok n) : assemble cs ps = .ok ⟨n⟩ := by
  simp only [assemble, hm, hn]

/-- Setting up the empty board succeeds. -/
theorem Puzzle.empty_eq : Puzzle.empty = .ok ⟨board⟩ := by
  have hframe := addConstraints_eq Matrix.Built.empty nodup_constraintNames
    fun c _ => constraintByName?_empty c.1
  have hboard := addPlacements_eq (m := frame) nodup_candidateNames
    (fun p _ => candidateByName?_frame p.name)
    (fun _ hp => (mem_boardPlacements.mp hp).map_constraintByName?)
    fun _ hp => mem_boardPlacements.mp hp
  exact assemble_eq hframe hboard

/-! ## What the matrix says -/

/-- The constraints are those of the board, all primary, and the candidates are the placements. -/
structure Encodes (m : Matrix Placement) : Prop where
  constraintCount : m.constraintCount = 324
  candidateCount : m.candidateCount = 729
  primary : m.AllPrimary
  payload : ∀ r, m.HasCandidate r → m.payload r = some (placementAt r)
  hits : ∀ r, m.HasCandidate r → ∀ c, m.Hits r c ↔ c ∈ (placementAt r).constraintNumbers
  candidateByName : ∀ name r, m.candidateByName? name = some r ↔
    m.HasCandidate r ∧ (placementAt r).name = name

theorem size_candidates_board : board.board.candidates.size = 730 := by
  rw [board, Matrix.size_peopledAll, frame, Matrix.candidates_constrainedAll, newCandidates,
    List.length_map, boardPlacements_eq, List.length_map, List.length_range']
  rfl

theorem candidate_board {r : Nat} (hr : 1 ≤ r ∧ r ≤ 729) :
    board.candidateName r = (placementAt r).name ∧ board.payload r = some (placementAt r) ∧
      ∀ c, board.Hits r c ↔ c ∈ (placementAt r).constraintNumbers := by
  obtain ⟨i, rfl⟩ : ∃ i, r = 1 + i := ⟨r - 1, by omega⟩
  have hentry : newCandidates[i]? = some ⟨(placementAt (1 + i)).name, placementAt (1 + i),
      (placementAt (1 + i)).constraintNumbers⟩ := by
    have hi : i < 729 := by omega
    rw [newCandidates, boardPlacements_eq, List.map_map, List.getElem?_map,
      List.getElem?_range' hi, Nat.one_mul]
    rfl
  have hrecord := Matrix.candidate_peopledAll built_frame.fresh fitFor_frame hentry
  have hsize : frame.board.candidates.size = 1 := by
    rw [frame, Matrix.candidates_constrainedAll]
    rfl
  rw [hsize] at hrecord
  exact hrecord

theorem size_constraints_board : board.board.constraints.size = 325 := by
  rw [board, Matrix.constraints_peopledAll, size_frame]

theorem hasCandidate_board {r : Nat} : board.HasCandidate r ↔ 1 ≤ r ∧ r ≤ 729 := by
  rw [Matrix.HasCandidate, size_candidates_board]
  omega

theorem encodes_board : Encodes board where
  constraintCount := by rw [Matrix.constraintCount, size_constraints_board]
  candidateCount := by rw [Matrix.candidateCount, size_candidates_board]
  primary := by
    intro c hc
    have hbounds : 1 ≤ c ∧ c ≤ 324 := by
      rw [Matrix.HasConstraint, size_constraints_board] at hc
      exact ⟨hc.1, Nat.le_of_lt_succ hc.2⟩
    have hprimary := (constraint_frame (i := c - 1) (by omega)).2
    rw [Nat.sub_add_cancel hbounds.1] at hprimary
    rw [Matrix.isPrimary, Matrix.constraint, board, Matrix.constraints_peopledAll]
    exact hprimary
  payload := fun r hr => (candidate_board (hasCandidate_board.mp hr)).2.1
  hits := fun r hr => (candidate_board (hasCandidate_board.mp hr)).2.2
  candidateByName := by
    intro name r
    rw [built_board.named.candidate]
    refine and_congr_right fun hr => ?_
    rw [(candidate_board (hasCandidate_board.mp hr)).1]

section Encodes

variable {m n : Matrix Placement}

/-- What a matrix says is a matter of its board. -/
theorem Encodes.of_board (h : Encodes m) (hb : n.board = m.board) : Encodes n := by
  have hpayload : n.payload = m.payload := by
    funext r
    rw [Matrix.payload, Matrix.candidate_of_board hb, Matrix.payload]
  have hname : n.candidateByName? = m.candidateByName? := by
    funext name
    rw [Matrix.candidateByName?, hb, Matrix.candidateByName?]
  obtain ⟨h1, h2, h3, h4, h5, h6⟩ := h
  rw [Matrix.constraintCount, ← hb] at h1
  rw [Matrix.candidateCount, ← hb] at h2
  rw [← Matrix.hasCandidate_of_board hb] at h4 h5 h6
  rw [← hpayload] at h4
  rw [← Matrix.hits_of_board hb] at h5
  rw [← hname] at h6
  exact ⟨h1, h2, h3.of_board hb, h4, h5, h6⟩

theorem encodes_of_board (hb : m.board = board.board) : Encodes m := encodes_board.of_board hb

theorem Encodes.hasConstraint (h : Encodes m) (c : Nat) : m.HasConstraint c ↔ 1 ≤ c ∧ c ≤ 324 := by
  have hcount := h.constraintCount
  unfold Matrix.constraintCount at hcount
  unfold Matrix.HasConstraint
  omega

theorem Encodes.hasCandidate (h : Encodes m) (r : Nat) : m.HasCandidate r ↔ 1 ≤ r ∧ r ≤ 729 := by
  have hcount := h.candidateCount
  unfold Matrix.candidateCount at hcount
  unfold Matrix.HasCandidate
  omega

theorem Encodes.fits (h : Encodes m) : m.Fits :=
  ⟨h.constraintCount ▸ by decide, h.candidateCount ▸ by decide⟩

theorem Encodes.candidateByName?_name (h : Encodes m) {p : Placement} (hp : p.OnBoard) :
    m.candidateByName? p.name = some p.number := by
  rw [h.candidateByName, h.hasCandidate, hp.placementAt_number]
  exact ⟨hp.number_bounds, rfl⟩

theorem Encodes.row_perm (h : Encodes m) (hl : m.Laid) {r : CandidateId} (hr : m.HasCandidate r) :
    ((m.row r).map m.constraintOf).Perm (placementAt r).constraintNumbers := by
  have hboard := onBoard_placementAt ((h.hasCandidate r).mp hr)
  refine (List.perm_ext_iff_of_nodup ((hl.row_ascending r hr).imp Nat.ne_of_lt)
    (hboard.constraintNumbers_ascending.imp Nat.ne_of_lt)).mpr fun c => ?_
  rw [← h.hits r hr, ← Matrix.hits_iff_mem_map]

/-- Every candidate has four constraints. -/
theorem Encodes.length_row (h : Encodes m) (hl : m.Laid) {r : CandidateId}
    (hr : m.HasCandidate r) : (m.row r).length = 4 := by
  have hlength := (h.row_perm hl hr).length_eq
  rwa [List.length_map] at hlength

end Encodes

end ExactCover.Sudoku
