/-
ExactCover.Strategy.Rectangles — a rectangle that could be filled in two ways.

Let three constraints without a common candidate have two candidates each and
line up as three corners of a rectangle, and let a fourth, wider constraint hold
two cells that close it. The eight candidates are two ways of filling the
rectangle. If every constraint they touch is touched an even number of times,
nothing outside is taken to tell the two ways apart, so a unique solution is
taken to use neither of the two extra cells.
-/
import ExactCover.Strategy.Wings

namespace ExactCover.Strategy

variable {P : Type}

/-- Three corners in the order in which they adjoin, each turned so that its two cells stand on
the two sides of the rectangle; first and last adjoin the fourth corner. -/
structure Chain where
  corners : List ConstraintId
  first : CellPair
  middle : CellPair
  last : CellPair

/-- The six cells of a chain, corner by corner. -/
def Chain.cells (k : Chain) : List CellId :=
  [k.first.1, k.first.2, k.middle.1, k.middle.2, k.last.1, k.last.2]

/-- Adjoining corners conflict on both sides. -/
def Chain.isAligned (m : Matrix P) (k : Chain) : Bool :=
  m.cellsConflict k.first.1 k.middle.1 && m.cellsConflict k.middle.1 k.last.1 &&
    m.cellsConflict k.first.2 k.middle.2 && m.cellsConflict k.middle.2 k.last.2

/-- Every way to line up three corners: each takes its turn in the middle, and the middle and the
last corner can be turned. -/
def chains (m : Matrix P) (a b c : Bivalue) : List Chain :=
  [(a, b, c), (b, a, c), (a, c, b)].flatMap fun (x, y, z) =>
    (flips y.cells).flatMap fun middle => (flips z.cells).flatMap fun last =>
      let k := Chain.mk [x.constraint, y.constraint, z.constraint] x.cells middle last
      if k.isAligned m then [k] else []

/-- `x` lines up with the first side of the rectangle and `y` with the second. -/
def Chain.isClosedBy (m : Matrix P) (k : Chain) (x y : CellId) : Bool :=
  m.cellsConflict k.last.1 x && m.cellsConflict x k.first.1 &&
    m.cellsConflict k.last.2 y && m.cellsConflict y k.first.2

/-- Every constraint of the eight candidates is touched an even number of times. -/
def Chain.isUndistinguished (m : Matrix P) (k : Chain) (x y : CellId) : Bool :=
  let touched := (k.cells ++ [x, y]).flatMap fun h =>
    (m.row (m.candidateOf h)).map m.constraintOf
  touched.all fun c => touched.count c % 2 == 0

/-- Two cells in the order in which they close a rectangle that nothing distinguishes. -/
def Chain.closing? (m : Matrix P) (k : Chain) (x y : CellId) : Option (CellPair) :=
  let extra :=
    if k.isClosedBy m x y then some (x, y)
    else if k.isClosedBy m y x then some (y, x)
    else none
  extra.filter fun e => k.isUndistinguished m e.1 e.2

/-- The deduction that two cells would complete a rectangle. -/
def rectangle (m : Matrix P) (cellsOnly : Bool) (corners : List ConstraintId)
    (fourth : ConstraintId) (x y : CellId) (extra : CellPair) : Deduction :=
  let word := if cellsOnly then "unique rectangle" else "hidden unique rectangle"
  let three := m.constraintList corners
  let wide := m.constraintName fourth
  let what := s!"{word} on {three} and {wide}"
  { strategy := if cellsOnly then .uniqueRectangle else .hiddenUniqueRectangle
    pattern := .rectangle corners fourth extra
    actions := (m.distinct [x, y]).map .eliminate
    description := s!"{what}: {m.nameAt x} and {m.nameAt y} would allow a second solution" }

/-- The first rectangle on three corners and one of the wider constraints. -/
def checkRectangle (m : Matrix P) (cellsOnly : Bool) (wide : List ConstraintId)
    (a b c : ConstraintId) : Option Deduction :=
  match m.twoCells? a, m.twoCells? b, m.twoCells? c with
  | some x, some y, some z =>
    match chains m ⟨a, x⟩ ⟨b, y⟩ ⟨c, z⟩ with
    | [] => none
    | k :: ks =>
      let six := k.cells.map m.candidateOf
      wide.findSome? fun fourth =>
        let extras := (m.column fourth).filter fun h => !six.contains (m.candidateOf h)
        (k :: ks).findSome? fun k =>
          firstPair (fun x y =>
            (k.closing? m x y).map (rectangle m cellsOnly k.corners fourth x y)) extras
  | _, _, _ => none

/-- The first rectangle of the matrix. The fourth constraint may be of any kind. -/
def findRectangle (m : Matrix P) (cellsOnly : Bool) : Option Deduction :=
  match m.activeConstraints.filter fun c => m.len c > 2 with
  | [] => none
  | wide =>
    firstTriple (fun a b => !m.intersects a b) (checkRectangle m cellsOnly wide)
      (bivalueConstraints m cellsOnly)

end ExactCover.Strategy
