/-
ExactCover.Proofs.Relations — the passes over two lists compute the relations of
sets.

A pass tells for every entry of one ascending list whether another ascending list
has its key (`joinOn_eq`). Where constraints and candidates are few enough for
their numbers to be told apart in 32 bits (`Fits`), keys are as good as numbers, and
columns and rows ascend in them. So inclusion, difference, intersection and
conflict are what their names say, for all constraints of a matrix that satisfies
its invariant, covered or not.

`Reached.relations_exact` says so for every state that is reached, each relation
stated of sets: of a constraint as the set `candidatesIn` of what is left in it, and
of a candidate as what it hits.
-/
import Mathlib.Data.Finset.Card
import Mathlib.Data.List.Perm.Subperm
import ExactCover.Matrix.Relation
import ExactCover.Proofs.Representation

namespace ExactCover

/-! ## One pass over two ascending lists -/

section Join

variable {α β : Type} {key : α → UInt32} {key' : β → UInt32}

/-- What is dropped before a key has smaller keys only. -/
theorem mem_map_dropWhile {k l : UInt32} (hkl : k ≤ l) (bs : List β) :
    l ∈ (bs.dropWhile fun b => key' b < k).map key' ↔ l ∈ bs.map key' := by
  induction bs with
  | nil => rfl
  | cons b bs ih =>
    rw [List.dropWhile_cons]
    by_cases hlt : key' b < k
    · have hne : l ≠ key' b := fun he => UInt32.not_le.mpr hlt (he ▸ hkl)
      simp only [hlt, decide_true, if_true, ih, List.map_cons, List.mem_cons, hne, false_or]
    · simp only [hlt, decide_false, Bool.false_eq_true, if_false]

/-- What is left when smaller keys are dropped begins with the key or does not have it. -/
theorem head_dropWhile {bs : List β} (hb : bs.Pairwise fun x y => key' x ≤ key' y) (k : UInt32) :
    (match bs.dropWhile fun b => key' b < k with
      | b :: _ => key' b == k
      | [] => false) = decide (k ∈ bs.map key') := by
  induction bs with
  | nil => rfl
  | cons b bs ih =>
    obtain ⟨hfirst, hrest⟩ := List.pairwise_cons.mp hb
    rw [List.dropWhile_cons]
    by_cases hlt : key' b < k
    · have hne : k ≠ key' b := fun he => UInt32.lt_irrefl k (he ▸ hlt)
      simp only [hlt, decide_true, if_true, ih hrest, List.map_cons, List.mem_cons, hne, false_or]
    · simp only [hlt, decide_false, Bool.false_eq_true, if_false, List.map_cons, List.mem_cons]
      by_cases he : key' b = k
      · simp [he]
      · have hnot : k ∉ bs.map key' := by
          intro hmem
          obtain ⟨x, hx, hxk⟩ := List.mem_map.mp hmem
          have hle : key' b ≤ k := hxk ▸ hfirst x hx
          exact he (UInt32.le_antisymm hle (UInt32.not_lt.mp hlt))
        simp [he, Ne.symm he, hnot]

/-- The pass pairs every entry of the left list with whether the right list has its key. -/
theorem joinOn_eq {as : List α} {bs : List β} (ha : as.Pairwise fun x y => key x ≤ key y)
    (hb : bs.Pairwise fun x y => key' x ≤ key' y) :
    joinOn key key' as bs = as.map fun a => (a, decide (key a ∈ bs.map key')) := by
  induction as generalizing bs with
  | nil => rfl
  | cons a as ih =>
    obtain ⟨hfirst, hrest⟩ := List.pairwise_cons.mp ha
    have hsorted : (bs.dropWhile fun b => key' b < key a).Pairwise fun x y => key' x ≤ key' y :=
      hb.sublist (List.dropWhile_sublist _)
    have hlater : (as.map fun x => (x, decide (key x ∈
        (bs.dropWhile fun b => key' b < key a).map key'))) =
        as.map fun x => (x, decide (key x ∈ bs.map key')) := by
      refine List.map_congr_left fun x hx => ?_
      simp only [mem_map_dropWhile (hfirst x hx)]
    unfold joinOn
    dsimp only
    rw [ih hrest hsorted, hlater, List.map_cons]
    exact congrArg (fun found => (a, found) :: _) (head_dropWhile hb (key a))

/-- Two ascending lists meet when they have a key in common. -/
theorem meetsOn_iff {as : List α} {bs : List β} (ha : as.Pairwise fun x y => key x ≤ key y)
    (hb : bs.Pairwise fun x y => key' x ≤ key' y) :
    meetsOn key key' as bs = true ↔ ∃ a ∈ as, key a ∈ bs.map key' := by
  rw [meetsOn_eq_any_joinOn, joinOn_eq ha hb]
  simp only [List.any_map, List.any_eq_true, Function.comp_apply, decide_eq_true_eq]

/-- The pass keeps the left list. -/
theorem map_fst_joinOn (key : α → UInt32) (key' : β → UInt32) (as : List α) (bs : List β) :
    (joinOn key key' as bs).map (·.1) = as := by
  induction as generalizing bs with
  | nil => rfl
  | cons a as ih =>
    unfold joinOn
    rw [List.map_cons, ih]

end Join

namespace Matrix

variable {P : Type}

/-! ## Ordinals -/

/-- Constraints and candidates can be told apart by their ordinals. -/
structure Fits (m : Matrix P) : Prop where
  constraints : m.constraintCount < UInt32.size
  candidates : m.candidateCount < UInt32.size

theorem Fits.of_board {m n : Matrix P} (h : m.Fits) (e : n.board = m.board) : n.Fits := by
  have hc := h.constraints
  have hr := h.candidates
  rw [constraintCount, ← e] at hc
  rw [candidateCount, ← e] at hr
  exact ⟨hc, hr⟩

theorem Fits.constraint_lt {m : Matrix P} (h : m.Fits) {c : Nat} (hc : m.HasConstraint c) :
    c < UInt32.size := by
  have h1 := h.constraints
  have h2 := hc.2
  unfold constraintCount at h1
  omega

theorem Fits.candidate_lt {m : Matrix P} (h : m.Fits) {r : Nat} (hr : m.HasCandidate r) :
    r < UInt32.size := by
  have h1 := h.candidates
  have h2 := hr.2
  unfold candidateCount at h1
  omega

theorem toNat_ordinal {n : Nat} (h : n < UInt32.size) : (ordinal n).toNat = n :=
  Nat.mod_eq_of_lt h

theorem ordinal_inj {a b : Nat} (ha : a < UInt32.size) (hb : b < UInt32.size)
    (h : ordinal a = ordinal b) : a = b := by
  rw [← toNat_ordinal ha, h, toNat_ordinal hb]

theorem ordinal_le {a b : Nat} (hb : b < UInt32.size) (h : a ≤ b) : ordinal a ≤ ordinal b := by
  rw [UInt32.le_iff_toNat_le, toNat_ordinal hb, toNat_ordinal (Nat.lt_of_le_of_lt h hb)]
  exact h

/-- Numbers that are small enough are found by their ordinals. -/
theorem ordinal_mem_map {a : Nat} {bs : List Nat} (ha : a < UInt32.size)
    (hb : ∀ b ∈ bs, b < UInt32.size) : ordinal a ∈ bs.map ordinal ↔ a ∈ bs := by
  rw [List.mem_map]
  constructor
  · intro h'
    obtain ⟨b, hbm, he⟩ := h'
    exact ordinal_inj (hb b hbm) ha he ▸ hbm
  · intro hbm
    exact ⟨a, hbm, rfl⟩

/-- What ascends in numbers ascends in ordinals. -/
theorem pairwise_ordinal {α : Type} {f : α → Nat} {xs : List α}
    (h : (xs.map f).Pairwise (· < ·)) (hf : ∀ x ∈ xs, f x < UInt32.size) :
    xs.Pairwise fun x y => ordinal (f x) ≤ ordinal (f y) := by
  refine (List.pairwise_map.mp h).imp_of_mem fun {x y} _ hy hlt => ?_
  exact ordinal_le (hf y hy) (Nat.le_of_lt hlt)

namespace Coherent

variable {m : Matrix P} {a b : ConstraintId} {x y : CandidateId} {h : CellId}

/-! ## Constraints as sets of candidates -/

theorem hasCandidate_column (hm : m.Coherent) (ha : m.HasConstraint a) (hh : h ∈ m.column a) :
    m.HasCandidate (m.candidateOf h) :=
  (hm.laid.row_cell h (mem_cellsOf.mp (hm.columns.mem_cellsOf ha hh)).1).1

theorem mem_column_lt (hm : m.Coherent) (hf : m.Fits) (ha : m.HasConstraint a) :
    ∀ h ∈ m.column a, m.candidateOf h < UInt32.size := fun _ hh =>
  hf.candidate_lt (hm.hasCandidate_column ha hh)

theorem candidateKey_ascending (hm : m.Coherent) (hf : m.Fits) (ha : m.HasConstraint a) :
    (m.column a).Pairwise fun h k => m.candidateKey h ≤ m.candidateKey k :=
  pairwise_ordinal (hm.column_ascending ha) (hm.mem_column_lt hf ha)

/-- The candidates of a column are found by their keys. -/
theorem candidateKey_mem (hm : m.Coherent) (hf : m.Fits) (ha : m.HasConstraint a)
    (hb : m.HasConstraint b) (hh : h ∈ m.column a) :
    m.candidateKey h ∈ (m.column b).map m.candidateKey ↔
      m.candidateOf h ∈ (m.column b).map m.candidateOf := by
  have hmap : (m.column b).map m.candidateKey = ((m.column b).map m.candidateOf).map ordinal := by
    rw [List.map_map]
    rfl
  rw [hmap]
  refine ordinal_mem_map (hm.mem_column_lt hf ha h hh) fun r hr => ?_
  obtain ⟨k, hk, rfl⟩ := List.mem_map.mp hr
  exact hm.mem_column_lt hf hb k hk

theorem joinColumns_eq (hm : m.Coherent) (hf : m.Fits) (ha : m.HasConstraint a)
    (hb : m.HasConstraint b) :
    m.joinColumns a b = (m.column a).map fun h =>
      (h, decide (m.candidateOf h ∈ (m.column b).map m.candidateOf)) := by
  unfold joinColumns
  rw [joinOn_eq (hm.candidateKey_ascending hf ha) (hm.candidateKey_ascending hf hb)]
  refine List.map_congr_left fun h hh => ?_
  simp only [hm.candidateKey_mem hf ha hb hh]

theorem minus_eq (hm : m.Coherent) (hf : m.Fits) (ha : m.HasConstraint a)
    (hb : m.HasConstraint b) :
    m.minus a b =
      (m.column a).filter fun h => m.candidateOf h ∉ (m.column b).map m.candidateOf := by
  unfold minus
  rw [hm.joinColumns_eq hf ha hb, List.filter_map, List.map_map]
  simp only [Function.comp_def, decide_not, List.map_id']

theorem sharedCells_eq (hm : m.Coherent) (hf : m.Fits) (ha : m.HasConstraint a)
    (hb : m.HasConstraint b) :
    m.sharedCells a b =
      (m.column a).filter fun h => m.candidateOf h ∈ (m.column b).map m.candidateOf := by
  unfold sharedCells
  rw [hm.joinColumns_eq hf ha hb, List.filter_map, List.map_map]
  simp only [Function.comp_def, List.map_id']

theorem isSubsetOf_iff (hm : m.Coherent) (hf : m.Fits) (ha : m.HasConstraint a)
    (hb : m.HasConstraint b) :
    m.isSubsetOf a b = true ↔
      ∀ r ∈ (m.column a).map m.candidateOf, r ∈ (m.column b).map m.candidateOf := by
  unfold isSubsetOf
  rw [hm.joinColumns_eq hf ha hb, hm.len_eq ha, hm.len_eq hb]
  simp only [List.all_map, Bool.and_eq_true, decide_eq_true_eq, List.all_eq_true,
    Function.comp_apply, List.forall_mem_map]
  constructor
  · intro h'
    obtain ⟨-, h⟩ := h'
    exact h
  · intro h
    refine ⟨?_, h⟩
    have hle := (List.subperm_of_subset (hm.column_candidates_nodup ha)
      (List.forall_mem_map.mpr h)).length_le
    simpa only [List.length_map] using hle

theorem isStrictSubsetOf_iff (hm : m.Coherent) (hf : m.Fits) (ha : m.HasConstraint a)
    (hb : m.HasConstraint b) :
    m.isStrictSubsetOf a b = true ↔ m.len a < m.len b ∧
      ∀ r ∈ (m.column a).map m.candidateOf, r ∈ (m.column b).map m.candidateOf := by
  unfold isStrictSubsetOf
  rw [Bool.and_eq_true, decide_eq_true_eq, hm.isSubsetOf_iff hf ha hb]

theorem intersects_iff (hm : m.Coherent) (hf : m.Fits) (ha : m.HasConstraint a)
    (hb : m.HasConstraint b) :
    m.intersects a b = true ↔
      ∃ r ∈ (m.column a).map m.candidateOf, r ∈ (m.column b).map m.candidateOf := by
  unfold intersects
  rw [meetsOn_iff (hm.candidateKey_ascending hf ha) (hm.candidateKey_ascending hf hb)]
  constructor
  · intro h'
    obtain ⟨h, hh, hkey⟩ := h'
    exact ⟨_, List.mem_map_of_mem hh, (hm.candidateKey_mem hf ha hb hh).mp hkey⟩
  · intro h'
    obtain ⟨r, hr, hrb⟩ := h'
    obtain ⟨h, hh, rfl⟩ := List.mem_map.mp hr
    exact ⟨h, hh, (hm.candidateKey_mem hf ha hb hh).mpr hrb⟩

/-- Having a candidate in common goes both ways. -/
theorem intersects_comm (hm : m.Coherent) (hf : m.Fits) (ha : m.HasConstraint a)
    (hb : m.HasConstraint b) : m.intersects a b = m.intersects b a := by
  rw [Bool.eq_iff_iff, hm.intersects_iff hf ha hb, hm.intersects_iff hf hb ha]
  constructor
  · intro h'
    obtain ⟨r, hr, hr'⟩ := h'
    exact ⟨r, hr', hr⟩
  · intro h'
    obtain ⟨r, hr, hr'⟩ := h'
    exact ⟨r, hr', hr⟩

/-! ## Candidates as sets of constraints -/

theorem mem_row_lt (hm : m.Coherent) (hf : m.Fits) (x : CandidateId) :
    ∀ h ∈ m.row x, m.constraintOf h < UInt32.size := fun _ hh =>
  hf.constraint_lt (hm.laid.hasConstraint_row hh)

/-- Part of a row ascends by constraint, like the row. -/
theorem constraintKey_ascending (hm : m.Coherent) (hf : m.Fits) {cells : List CellId}
    (hc : cells.Sublist (m.row x)) :
    cells.Pairwise fun h k => m.constraintKey h ≤ m.constraintKey k := by
  rcases cells with _ | ⟨k, cells⟩
  · exact List.Pairwise.nil
  · have hx := hm.laid.hasCandidate (hc.subset List.mem_cons_self)
    exact pairwise_ordinal ((hm.laid.row_ascending x hx).sublist (hc.map m.constraintOf))
      fun h hh => hm.mem_row_lt hf x h (hc.subset hh)

/-- The constraints of a row are found by their keys. -/
theorem constraintKey_mem (hm : m.Coherent) (hf : m.Fits) (hh : h ∈ m.row x) :
    m.constraintKey h ∈ (m.row y).map m.constraintKey ↔ m.Hits y (m.constraintOf h) := by
  have hmap : (m.row y).map m.constraintKey = ((m.row y).map m.constraintOf).map ordinal := by
    rw [List.map_map]
    rfl
  show ordinal (m.constraintOf h) ∈ _ ↔ _
  rw [hmap, ordinal_mem_map (hm.mem_row_lt hf x h hh), List.mem_map]
  · rfl
  · intro c hc
    obtain ⟨k, hk, rfl⟩ := List.mem_map.mp hc
    exact hm.mem_row_lt hf y k hk

theorem conflicts_iff (hm : m.Coherent) (hf : m.Fits) :
    m.conflicts x y = true ↔ Shares m x y := by
  unfold conflicts
  rw [meetsOn_iff (hm.constraintKey_ascending hf (List.Sublist.refl _))
    (hm.constraintKey_ascending hf (List.Sublist.refl _))]
  constructor
  · intro h'
    obtain ⟨h, hh, hkey⟩ := h'
    exact ⟨_, ⟨h, hh, rfl⟩, (hm.constraintKey_mem hf hh).mp hkey⟩
  · intro h'
    obtain ⟨c, ⟨h, hh, rfl⟩, hy⟩ := h'
    exact ⟨h, hh, (hm.constraintKey_mem hf hh).mpr hy⟩

theorem cellsConflict_iff (hm : m.Coherent) (hf : m.Fits) {h k : CellId} :
    m.cellsConflict h k = true ↔ Shares m (m.candidateOf h) (m.candidateOf k) :=
  hm.conflicts_iff hf

/-- What is retained of some cells of a row is those in constraints of all the others. -/
theorem mem_retainCommon (hm : m.Coherent) (hf : m.Fits) {cells : List CellId}
    (hc : cells.Sublist (m.row x)) (others : List CandidateId) :
    h ∈ m.retainCommon cells others ↔
      h ∈ cells ∧ ∀ y ∈ others, m.Hits y (m.constraintOf h) := by
  induction others generalizing cells with
  | nil => simp [retainCommon]
  | cons y others ih =>
    have hkept : (((joinOn m.constraintKey m.constraintKey cells (m.row y)).filter (·.2)).map
        (·.1)) = cells.filter fun k => m.constraintKey k ∈ (m.row y).map m.constraintKey := by
      rw [joinOn_eq (hm.constraintKey_ascending hf hc)
        (hm.constraintKey_ascending hf (List.Sublist.refl _)), List.filter_map, List.map_map]
      simp [Function.comp_def]
    have hsub : (cells.filter fun k =>
        m.constraintKey k ∈ (m.row y).map m.constraintKey).Sublist (m.row x) :=
      List.filter_sublist.trans hc
    have hfilter := ih hsub
    rw [← hkept] at hfilter
    unfold retainCommon at hfilter ⊢
    rw [List.foldl_cons, hfilter, hkept, List.mem_filter, decide_eq_true_eq, List.forall_mem_cons,
      and_assoc]
    refine and_congr_right fun hh => ?_
    rw [hm.constraintKey_mem hf (hc.subset hh)]

/-- There is a common constraint when some constraint is satisfied by all. -/
theorem commonConstraint_isSome_iff (hm : m.Coherent) (hf : m.Fits) (others : List CandidateId) :
    (m.commonConstraint x others).isSome = true ↔
      ∃ c, m.Hits x c ∧ ∀ y ∈ others, m.Hits y c := by
  unfold commonConstraint
  rw [List.isSome_head?]
  constructor
  · intro hne
    obtain ⟨h, hh⟩ := List.exists_mem_of_ne_nil _ hne
    obtain ⟨hrow, hall⟩ := (hm.mem_retainCommon hf (List.Sublist.refl _) others).mp hh
    exact ⟨_, ⟨h, hrow, rfl⟩, hall⟩
  · intro h'
    obtain ⟨c, ⟨h, hrow, rfl⟩, hall⟩ := h'
    have hh := (hm.mem_retainCommon hf (List.Sublist.refl _) others).mpr ⟨hrow, hall⟩
    exact List.ne_nil_of_mem hh

end Coherent

/-! ## The relations as relations of sets -/

/-- The candidates left in a constraint. -/
def candidatesIn (m : Matrix P) (c : ConstraintId) : Finset CandidateId :=
  ((m.column c).map m.candidateOf).toFinset

theorem mem_candidatesIn {m : Matrix P} {c : ConstraintId} {r : CandidateId} :
    r ∈ m.candidatesIn c ↔ r ∈ (m.column c).map m.candidateOf := List.mem_toFinset

/-- A list has just the cells that `p` holds of, ascending in their keys, so each of them once. -/
structure ListsCells (key : CellId → Nat) (p : CellId → Prop) (cells : List CellId) : Prop where
  mem : ∀ h, h ∈ cells ↔ p h
  ascending : (cells.map key).Pairwise (· < ·)

/-- The relations of two constraints are those of the sets of candidates left in them. -/
structure RelatesColumns (m : Matrix P) (a b : ConstraintId) : Prop where
  subset : m.isSubsetOf a b = true ↔ m.candidatesIn a ⊆ m.candidatesIn b
  strict : m.isStrictSubsetOf a b = true ↔ m.candidatesIn a ⊂ m.candidatesIn b
  minus : ListsCells m.candidateOf
    (fun h => h ∈ m.column a ∧ m.candidateOf h ∉ m.candidatesIn b) (m.minus a b)
  shared : ListsCells m.candidateOf
    (fun h => h ∈ m.column a ∧ m.candidateOf h ∈ m.candidatesIn b) (m.sharedCells a b)
  intersects : m.intersects a b = true ↔ (m.candidatesIn a ∩ m.candidatesIn b).Nonempty

/-- The relations of two candidates are those of the sets of constraints that they hit. -/
structure RelatesRows (m : Matrix P) (x y : CandidateId) : Prop where
  conflicts : m.conflicts x y = true ↔ ∃ c, m.Hits x c ∧ m.Hits y c
  shared : ListsCells m.constraintOf
    (fun h => h ∈ m.row x ∧ m.Hits y (m.constraintOf h)) (m.sharedConstraints x y)

/-- The common constraint of a candidate and some others is the lowest of all that they all hit. -/
structure RelatesAll (m : Matrix P) (x : CandidateId) (ys : List CandidateId) : Prop where
  none_iff : m.commonConstraint x ys = none ↔ ¬ ∃ c, m.Hits x c ∧ ∀ y ∈ ys, m.Hits y c
  mem : ∀ h, m.commonConstraint x ys = some h →
    h ∈ m.row x ∧ ∀ y ∈ ys, m.Hits y (m.constraintOf h)
  lowest : ∀ h, m.commonConstraint x ys = some h →
    ∀ c, m.Hits x c → (∀ y ∈ ys, m.Hits y c) → m.constraintOf h ≤ c

/-- What is retained comes in the order of the cells it is chosen from. -/
theorem retainCommon_sublist (m : Matrix P) (cells : List CellId) (others : List CandidateId) :
    (m.retainCommon cells others).Sublist cells := by
  induction others generalizing cells with
  | nil => exact List.Sublist.refl cells
  | cons y others ih =>
    have hstep := (List.filter_sublist (p := fun k : CellId × Bool => k.2)
      (l := joinOn m.constraintKey m.constraintKey cells (m.row y))).map (·.1)
    rw [map_fst_joinOn] at hstep
    exact (ih _).trans hstep

namespace Coherent

variable {m : Matrix P} {a b : ConstraintId}

theorem card_candidatesIn (hm : m.Coherent) (ha : m.HasConstraint a) :
    (m.candidatesIn a).card = m.len a := by
  rw [candidatesIn, List.toFinset_card_of_nodup (hm.column_candidates_nodup ha), List.length_map,
    hm.len_eq ha]

/-- What is picked from a column by candidate is listed in the order of the column. -/
theorem listsCells_column (hm : m.Coherent) (ha : m.HasConstraint a) (p : CandidateId → Prop)
    [DecidablePred p] :
    ListsCells m.candidateOf (fun h => h ∈ m.column a ∧ p (m.candidateOf h))
      ((m.column a).filter fun h => p (m.candidateOf h)) where
  mem h := by rw [List.mem_filter, decide_eq_true_eq]
  ascending := (hm.column_ascending ha).sublist (List.filter_sublist.map m.candidateOf)

theorem relatesColumns (hm : m.Coherent) (hf : m.Fits) (ha : m.HasConstraint a)
    (hb : m.HasConstraint b) : m.RelatesColumns a b := by
  have hsubset : (∀ r ∈ (m.column a).map m.candidateOf, r ∈ (m.column b).map m.candidateOf) ↔
      m.candidatesIn a ⊆ m.candidatesIn b := by
    simp only [Finset.subset_iff, mem_candidatesIn]
  constructor
  case subset => rw [hm.isSubsetOf_iff hf ha hb, hsubset]
  case strict =>
    rw [hm.isStrictSubsetOf_iff hf ha hb, hsubset, ← hm.card_candidatesIn ha,
      ← hm.card_candidatesIn hb]
    constructor
    · intro h'
      obtain ⟨hlt, hsub⟩ := h'
      exact Finset.ssubset_iff_subset_ne.mpr ⟨hsub, fun he => Nat.ne_of_lt hlt (he ▸ rfl)⟩
    · intro hlt
      exact ⟨Finset.card_lt_card hlt, hlt.subset⟩
  case minus =>
    rw [hm.minus_eq hf ha hb]
    simp only [← mem_candidatesIn]
    exact hm.listsCells_column ha (· ∉ m.candidatesIn b)
  case shared =>
    rw [hm.sharedCells_eq hf ha hb]
    simp only [← mem_candidatesIn]
    exact hm.listsCells_column ha (· ∈ m.candidatesIn b)
  case intersects =>
    rw [hm.intersects_iff hf ha hb]
    simp only [Finset.Nonempty, Finset.mem_inter, mem_candidatesIn]

/-- Cells that are retained from a row ascend by constraint. -/
theorem retainCommon_ascending (hm : m.Coherent) (x : CandidateId) (others : List CandidateId) :
    ((m.retainCommon (m.row x) others).map m.constraintOf).Pairwise (· < ·) := by
  have hsub := m.retainCommon_sublist (m.row x) others
  rcases hcells : m.retainCommon (m.row x) others with _ | ⟨h, rest⟩
  · exact List.Pairwise.nil
  · rw [hcells] at hsub
    have hx := hm.laid.hasCandidate (hsub.subset List.mem_cons_self)
    exact (hm.laid.row_ascending x hx).sublist (hsub.map m.constraintOf)

theorem relatesRows (hm : m.Coherent) (hf : m.Fits) (x y : CandidateId) :
    m.RelatesRows x y where
  conflicts := hm.conflicts_iff hf
  shared :=
    { mem := fun h => by
        have hmem := hm.mem_retainCommon (h := h) hf (List.Sublist.refl (m.row x)) [y]
        rwa [List.forall_mem_singleton] at hmem
      ascending := hm.retainCommon_ascending x [y] }

theorem relatesAll (hm : m.Coherent) (hf : m.Fits) (x : CandidateId) (ys : List CandidateId) :
    m.RelatesAll x ys := by
  have hmem := fun h => hm.mem_retainCommon (h := h) hf (List.Sublist.refl (m.row x)) ys
  have hascending := hm.retainCommon_ascending x ys
  constructor
  case none_iff => rw [← hm.commonConstraint_isSome_iff hf ys, Option.not_isSome_iff_eq_none]
  case mem =>
    intro h hcommon
    exact (hmem h).mp (List.mem_of_head? hcommon)
  case lowest =>
    intro h hcommon c hxc hall
    obtain ⟨k, hk, rfl⟩ := hxc
    obtain ⟨rest, hcells⟩ := List.head?_eq_some_iff.mp hcommon
    have hk := (hmem k).mpr ⟨hk, hall⟩
    rw [hcells] at hk hascending
    rcases List.mem_cons.mp hk with rfl | hk
    · exact Nat.le_refl _
    · exact Nat.le_of_lt (List.rel_of_pairwise_cons hascending (List.mem_map_of_mem hk))

end Coherent

end Matrix

section Related

variable {P : Type}

/-- In every state that is reached, the relations of constraints, covered or not, are those of the
sets of candidates left in them, and the relations of candidates are those of the sets of
constraints that they hit. -/
theorem Reached.relations_exact {es : List Entry} {m : Matrix P} (h : Reached es m)
    (hf : m.Fits) :
    (∀ a b, m.HasConstraint a → m.HasConstraint b → m.RelatesColumns a b) ∧
      (∀ x y, m.RelatesRows x y) ∧ ∀ x ys, m.RelatesAll x ys :=
  ⟨fun _ _ ha hb => h.coherent.relatesColumns hf ha hb, h.coherent.relatesRows hf,
    h.coherent.relatesAll hf⟩

theorem Reached.relations_exact_sample :
    ∃ m : Matrix Unit, Reached [.move (.cover 3)] m ∧ m.isCovered 3 = true ∧
      (m.isStrictSubsetOf 1 3 = true ∧ m.candidatesIn 1 ⊂ m.candidatesIn 3) ∧
      (m.conflicts 1 2 = true ∧ ∃ c, m.Hits 1 c ∧ m.Hits 2 c) ∧
      m.commonConstraint 2 [1, 2] = some 7 ∧ m.RelatesAll 2 [1, 2] := by
  have hreached : Reached [.move (.cover 3)] _ :=
    .move (a := .cover 3) (.built Matrix.built_sample) ⟨⟨by decide, by decide⟩, by decide⟩
  obtain ⟨hcolumns, hrows, hall⟩ := Reached.relations_exact hreached ⟨by decide, by decide⟩
  have hstrict : (Matrix.sample.cover 3).matrix.isStrictSubsetOf 1 3 = true := by decide
  have hconflicts : (Matrix.sample.cover 3).matrix.conflicts 1 2 = true := by decide
  refine ⟨_, hreached, by decide, ⟨hstrict, ?_⟩, ⟨hconflicts, ?_⟩, by decide, hall 2 [1, 2]⟩
  · exact (hcolumns 1 3 ⟨by decide, by decide⟩ ⟨by decide, by decide⟩).strict.mp hstrict
  · exact (hrows 1 2).conflicts.mp hconflicts

end Related

end ExactCover
