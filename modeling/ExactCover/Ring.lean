/-
ExactCover.Ring — circular doubly linked lists over positions.

A `Ring` links the positions `0 … size - 1` in both directions. Several
disjoint circles live in one ring: the cells of every constraint, or the list
of active candidates behind its sentinel. A position that is taken out of its
circle with `unlink` keeps its own two links, which is all that `relink` needs
to put it back between the neighbours it had.

`forward` and `backward` are the views: the positions met on the way round from
a sentinel, in either direction, the sentinel left out. A walk makes at most as
many steps as there are positions, so it ends on every ring.

`relink_unlink` is the fact that everything reversible rests on: a position whose
neighbours pointed at it can be taken out and put back without a trace.
-/

namespace ExactCover

/-- Two links for every position, one in each direction. -/
structure Ring where
  /-- The position before each position. -/
  before : Array Nat
  /-- The position after each position. -/
  after : Array Nat
  deriving DecidableEq, Repr, Inhabited

namespace Ring

/-- The ring without positions. -/
def empty : Ring := ⟨#[], #[]⟩

/-- How many positions are linked; the next position to be pushed. -/
def size (r : Ring) : Nat := r.after.size

/-- The position before `i`. -/
def prev (r : Ring) (i : Nat) : Nat := r.before.getD i 0

/-- The position after `i`. -/
def next (r : Ring) (i : Nat) : Nat := r.after.getD i 0

/-- Makes `j` the position after `i`, and `i` the position before `j`. -/
def join (r : Ring) (i j : Nat) : Ring :=
  { before := r.before.setIfInBounds j i, after := r.after.setIfInBounds i j }

/-- Takes `i` out of its circle by joining its neighbours. The links of `i` itself stay. -/
def unlink (r : Ring) (i : Nat) : Ring :=
  let p := r.prev i
  let n := r.next i
  r.join p n

/-- Puts `i` back between the two positions that its own links name. -/
def relink (r : Ring) (i : Nat) : Ring :=
  let p := r.prev i
  let n := r.next i
  { before := r.before.setIfInBounds n i, after := r.after.setIfInBounds p i }

/-- Adds a position that forms a circle of its own. -/
def pushAlone (r : Ring) : Ring :=
  let i := r.size
  { before := r.before.push i, after := r.after.push i }

/-- Adds a position at the end of the circle of `s`, just before `s`. -/
def pushBefore (r : Ring) (s : Nat) : Ring :=
  let i := r.size
  let last := r.prev s
  { before := (r.before.push last).setIfInBounds s i
    after := (r.after.push s).setIfInBounds last i }

/-- The positions met by following `step` from `i` until `stop` comes, at most `n` of them. -/
def walk (step : Nat → Nat) (stop : Nat) : Nat → Nat → List Nat
  | 0, _ => []
  | n + 1, i =>
    let j := step i
    if j = stop then [] else j :: walk step stop n j

/-- The circle of `s` going forward, without `s`. -/
def forward (r : Ring) (s : Nat) : List Nat := walk r.next s r.size s

/-- The circle of `s` going backward, without `s`. -/
def backward (r : Ring) (s : Nat) : List Nat := walk r.prev s r.size s

/-! ## What the operations do to the links -/

theorem next_join (r : Ring) (i j k : Nat) :
    (r.join i j).next k = if i = k ∧ k < r.after.size then j else r.next k := by
  unfold join next
  by_cases h : i = k
  · subst h
    by_cases hk : i < r.after.size <;> simp [hk, Array.getD_eq_getD_getElem?]
  · simp [h, Array.getD_eq_getD_getElem?, Array.getElem?_setIfInBounds_ne]

theorem prev_join (r : Ring) (i j k : Nat) :
    (r.join i j).prev k = if j = k ∧ k < r.before.size then i else r.prev k := by
  unfold join prev
  by_cases h : j = k
  · subst h
    by_cases hk : j < r.before.size <;> simp [hk, Array.getD_eq_getD_getElem?]
  · simp [h, Array.getD_eq_getD_getElem?, Array.getElem?_setIfInBounds_ne]

@[simp] theorem size_join (r : Ring) (i j : Nat) : (r.join i j).size = r.size := by
  simp [join, size]

@[simp] theorem size_unlink (r : Ring) (i : Nat) : (r.unlink i).size = r.size := by
  simp [unlink]

@[simp] theorem size_relink (r : Ring) (i : Nat) : (r.relink i).size = r.size := by
  simp [relink, size]

@[simp] theorem size_pushAlone (r : Ring) : r.pushAlone.size = r.size + 1 := by
  simp [pushAlone, size]

@[simp] theorem size_pushBefore (r : Ring) (s : Nat) : (r.pushBefore s).size = r.size + 1 := by
  simp [pushBefore, size]

/-! ## Taking out and putting back -/

/-- Writing what an array holds already changes nothing. -/
theorem setIfInBounds_of_getD_eq {xs : Array Nat} {i v : Nat} (h : xs.getD i 0 = v) :
    xs.setIfInBounds i v = xs := by
  by_cases hi : i < xs.size
  · rw [Array.getD_eq_getD_getElem?, Array.getElem?_eq_getElem hi, Option.getD_some] at h
    subst h
    rw [Array.setIfInBounds, dif_pos hi, Array.set_getElem_self]
  · rw [Array.setIfInBounds, dif_neg hi]

/-- A position that was taken out keeps the position before it. -/
theorem prev_unlink_self (r : Ring) (i : Nat) : (r.unlink i).prev i = r.prev i := by
  unfold unlink
  rw [prev_join]
  exact ite_self (r.prev i)

/-- A position that was taken out keeps the position after it. -/
theorem next_unlink_self (r : Ring) (i : Nat) : (r.unlink i).next i = r.next i := by
  unfold unlink
  rw [next_join]
  exact ite_self (r.next i)

/-- Putting a position back undoes taking it out, if its neighbours pointed at it. -/
theorem relink_unlink {r : Ring} {i : Nat} (hn : r.next (r.prev i) = i)
    (hp : r.prev (r.next i) = i) : (r.unlink i).relink i = r := by
  unfold relink
  rw [prev_unlink_self, next_unlink_self]
  show Ring.mk ((r.before.setIfInBounds (r.next i) (r.prev i)).setIfInBounds (r.next i) i)
    ((r.after.setIfInBounds (r.prev i) (r.next i)).setIfInBounds (r.prev i) i) = r
  rw [Array.setIfInBounds_setIfInBounds, Array.setIfInBounds_setIfInBounds,
    setIfInBounds_of_getD_eq hp, setIfInBounds_of_getD_eq hn]

end Ring

end ExactCover
