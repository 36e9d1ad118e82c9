/-
ExactCover.Proofs.Patterns.Basic — what it takes for a search to be exact.

A strategy looks for a pattern in some order and reports the first one that allows
an elimination. Which patterns there are is said without the search, by a relation
`Shows` between what can be seen in a matrix and what it rules out. A search
`Finds` them if it comes back empty only where no pattern rules anything out, and if
what it reports is a pattern together with all that this pattern rules out.

Searches for wings, triples and rectangles go through constraints that are pairwise
`Apart`. Where constraints have two candidates, their cells can be taken in either
order (`Bivalued`).
-/
import Mathlib.Data.List.Pairwise
import ExactCover.Proofs.Soundness

namespace ExactCover

variable {P : Type} {m : Matrix P}

open Matrix.Coherent (Shares)

/-! ## What a pattern rules out -/

/-- An active candidate outside that conflicts with all members. -/
structure Matrix.CommonConflict (m : Matrix P) (members : List CandidateId) (r : CandidateId) :
    Prop where
  active : r ∈ m.activeCandidates
  outside : r ∉ members
  all : ∀ x ∈ members, Shares m r x

/-- It makes no difference how the members are listed. -/
theorem Matrix.CommonConflict.congr {xs ys : List CandidateId} {r : CandidateId}
    (h : m.CommonConflict xs r) (he : ∀ x, x ∈ ys ↔ x ∈ xs) : m.CommonConflict ys r :=
  ⟨h.active, fun hr => h.outside ((he r).mp hr), fun x hx => h.all x ((he x).mp hx)⟩

theorem Matrix.Coherent.mem_map_commonConflicts (hm : m.Coherent) (hf : m.Fits)
    (members : List CandidateId) (r : CandidateId) :
    r ∈ (m.commonConflicts members).map m.candidateOf ↔ m.CommonConflict members r := by
  constructor
  · intro hr
    obtain ⟨h, hh, rfl⟩ := List.mem_map.mp hr
    obtain ⟨hactive, hout, hall⟩ := hm.mem_commonConflicts hf hh
    exact ⟨hm.mem_activeCandidates.mpr hactive, hout, hall⟩
  · intro hr
    have hkept : (!members.contains r && members.all fun x => m.conflicts r x) = true := by
      simp only [List.contains_eq_mem, Bool.and_eq_true, Bool.not_eq_true',
        decide_eq_false_iff_not, List.all_eq_true]
      exact ⟨hr.outside, fun x hx => (hm.conflicts_iff hf).mpr (hr.all x hx)⟩
    rw [← hm.candidateOf_firstCell (hm.mem_activeCandidates.mp hr.active)]
    exact List.mem_map_of_mem (List.mem_map_of_mem (List.mem_filter.mpr ⟨hr.active, hkept⟩))

/-- All that a deduction does is to eliminate certain candidates, each of them once. -/
structure Deduction.Eliminates (m : Matrix P) (d : Deduction) (gone : CandidateId → Prop) :
    Prop where
  only : d.actions = d.eliminations.map .eliminate
  once : (d.eliminations.map m.candidateOf).Nodup
  mem : ∀ r, r ∈ d.eliminations.map m.candidateOf ↔ gone r

theorem Deduction.eliminations_of_map {d : Deduction} {cells : List CellId}
    (h : d.actions = cells.map .eliminate) : d.eliminations = cells := by
  rw [eliminations, h, List.filterMap_map]
  exact List.filterMap_some

theorem Deduction.eliminates_distinct {d : Deduction} {cells : List CellId}
    {gone : CandidateId → Prop} (h : d.actions = (m.distinct cells).map .eliminate)
    (hgone : ∀ r, r ∈ cells.map m.candidateOf ↔ gone r) : d.Eliminates m gone := by
  have he := eliminations_of_map h
  constructor
  case only => rw [he, h]
  case once =>
    rw [he]
    exact m.nodup_distinct cells
  case mem =>
    intro r
    rw [he, Matrix.mem_map_distinct]
    exact hgone r

/-! ## Exact searches -/

/-- A search finds nothing only if no pattern rules anything out, and what it finds is one of the
patterns that do, with all that it rules out. -/
structure Finds (m : Matrix P) (found : Option Deduction)
    (Shows : Pattern → (CandidateId → Prop) → Prop) : Prop where
  none_iff : found = none ↔ ¬ ∃ pattern gone, Shows pattern gone ∧ ∃ r, gone r
  reports : ∀ d, found = some d →
    ∃ gone, Shows d.pattern gone ∧ (∃ r, gone r) ∧ d.Eliminates m gone

/-- A search is exact if what it finds is right and no pattern is passed over. -/
theorem Finds.intro {found : Option Deduction} {Shows : Pattern → (CandidateId → Prop) → Prop}
    (hreports : ∀ d, found = some d →
      ∃ gone, Shows d.pattern gone ∧ (∃ r, gone r) ∧ d.Eliminates m gone)
    (hcomplete : ∀ pattern gone r, Shows pattern gone → gone r → found ≠ none) :
    Finds m found Shows where
  none_iff := by
    constructor
    · intro hnone h'
      obtain ⟨pattern, gone, hshows, r, hr⟩ := h'
      exact hcomplete pattern gone r hshows hr hnone
    · intro hno
      refine Option.eq_none_iff_forall_ne_some.mpr fun d hd => hno ?_
      obtain ⟨gone, hshows, hgone, -⟩ := hreports d hd
      exact ⟨d.pattern, gone, hshows, hgone⟩
  reports := hreports

/-- A member with an answer is not passed over. -/
theorem findSome?_ne_none {α β : Type} {f : α → Option β} {xs : List α} {x : α} (hx : x ∈ xs)
    (hf : f x ≠ none) : xs.findSome? f ≠ none := fun h =>
  hf (List.findSome?_eq_none_iff.mp h x hx)

namespace Matrix

/-! ## Constraints without a common candidate -/

/-- No candidate is left in both constraints. -/
def Apart (m : Matrix P) (a b : ConstraintId) : Prop :=
  Disjoint (m.candidatesIn a) (m.candidatesIn b)

theorem Apart.symm {a b : ConstraintId} (h : m.Apart a b) : m.Apart b a := Disjoint.symm h

theorem Coherent.intersects_eq_false_iff (hm : m.Coherent) (hf : m.Fits) {a b : ConstraintId}
    (ha : a ∈ m.activeConstraints) (hb : b ∈ m.activeConstraints) :
    m.intersects a b = false ↔ m.Apart a b := by
  have hrelates := hm.relatesColumns hf (hm.mem_activeConstraints.mp ha).1
    (hm.mem_activeConstraints.mp hb).1
  rw [← Bool.not_eq_true, hrelates.intersects, Finset.not_nonempty_iff_eq_empty, Apart,
    Finset.disjoint_iff_inter_eq_empty]

/-- The constraints of a triple that is looked at are pairwise apart. -/
theorem Coherent.pairwise_apart (hm : m.Coherent) (hf : m.Fits) {a b c : ConstraintId}
    (hactive : ∀ x ∈ [a, b, c], x ∈ m.activeConstraints) (hab : m.intersects a b = false)
    (hac : m.intersects a c = false) (hbc : m.intersects b c = false) :
    [a, b, c].Pairwise m.Apart := by
  have hapart := fun {x y} hx hy =>
    (hm.intersects_eq_false_iff hf (a := x) (b := y) (hactive x hx) (hactive y hy)).mp
  simp only [List.pairwise_cons, List.mem_cons, List.not_mem_nil, or_false, forall_eq_or_imp,
    forall_eq, false_imp_iff, implies_true, List.Pairwise.nil, and_true]
  exact ⟨⟨hapart (by simp) (by simp) hab, hapart (by simp) (by simp) hac⟩,
    hapart (by simp) (by simp) hbc⟩

/-- Constraints that are pairwise apart and have candidates are different. -/
theorem nodup_of_apart {cs : List ConstraintId} (h : cs.Pairwise m.Apart)
    (hne : ∀ c ∈ cs, m.candidatesIn c ≠ ∅) : cs.Nodup := by
  refine h.imp_of_mem fun {a b} ha _ hab => ?_
  rintro rfl
  exact hne a ha (disjoint_self.mp hab)

/-- Whatever their order, different constraints of such a list are apart. -/
theorem apart_of_pairwise {cs : List ConstraintId} (h : cs.Pairwise m.Apart) {a b : ConstraintId}
    (ha : a ∈ cs) (hb : b ∈ cs) (hne : a ≠ b) : m.Apart a b := by
  have : Std.Symm m.Apart := ⟨fun _ _ => Apart.symm⟩
  exact h.forall ha hb hne

/-- Constraints that are pairwise apart are so in every order. -/
theorem pairwise_apart_of_perm {cs ds : List ConstraintId} (h : cs.Pairwise m.Apart)
    (hperm : ds.Perm cs) : ds.Pairwise m.Apart :=
  (hperm.pairwise_iff fun hab => Apart.symm hab).mpr h

end Matrix

namespace Strategy

open ExactCover.Matrix

/-! ## Constraints with two candidates -/

/-- An active constraint, a cell if only those count, has two candidates left; `x` are its cells one
way or the other. -/
structure Bivalued (m : Matrix P) (cellsOnly : Bool) (c : ConstraintId) (x : CellPair) : Prop where
  active : c ∈ m.activeConstraints
  kind : cellsOnly = true → m.kind c = .cell
  cells : (m.column c).Perm [x.1, x.2]

variable {cellsOnly : Bool} {c : ConstraintId} {x : CellPair}

/-- The cells can be taken the other way round. -/
theorem Bivalued.turn (h : Bivalued m cellsOnly c x) : Bivalued m cellsOnly c (x.2, x.1) :=
  ⟨h.active, h.kind, h.cells.trans (List.Perm.swap ..)⟩

theorem Bivalued.mem_column (h : Bivalued m cellsOnly c x) : x.1 ∈ m.column c ∧ x.2 ∈ m.column c :=
  ⟨h.cells.mem_iff.mpr (by simp), h.cells.mem_iff.mpr (by simp)⟩

theorem Bivalued.candidatesIn_ne_empty (h : Bivalued m cellsOnly c x) : m.candidatesIn c ≠ ∅ :=
  Finset.ne_empty_of_mem (mem_candidatesIn.mpr (List.mem_map_of_mem h.mem_column.1))

theorem Bivalued.mem_bivalueConstraints (h : Bivalued m cellsOnly c x) (hm : m.Coherent) :
    c ∈ bivalueConstraints m cellsOnly := by
  refine List.mem_filter.mpr ⟨List.mem_filter.mpr ⟨h.active, ?_⟩, ?_⟩
  · rw [hm.len_eq (hm.mem_activeConstraints.mp h.active).1, h.cells.length_eq]
    rfl
  · cases cellsOnly with
    | false => rfl
    | true => simpa using h.kind rfl

/-- A constraint with its two cells in their order in the column. -/
def bivalueAt (m : Matrix P) (c : ConstraintId) : Bivalue := ⟨c, (m.twoCells? c).getD (0, 0)⟩

theorem Bivalued.exists_twoCells? (h : Bivalued m cellsOnly c x) :
    ∃ y, m.twoCells? c = some y ∧ x ∈ flips y := by
  rcases List.perm_pair.mp h.cells with hcolumn | hcolumn
  · exact ⟨(x.1, x.2), by rw [twoCells?, hcolumn], List.mem_cons_self⟩
  · exact ⟨(x.2, x.1), by rw [twoCells?, hcolumn], List.mem_cons_of_mem _ List.mem_cons_self⟩

theorem Bivalued.twoCells? (h : Bivalued m cellsOnly c x) :
    m.twoCells? c = some (bivalueAt m c).cells := by
  obtain ⟨y, hy, -⟩ := h.exists_twoCells?
  simp [bivalueAt, hy]

/-- The cells are those of the column one way or the other. -/
theorem Bivalued.mem_flips (h : Bivalued m cellsOnly c x) : x ∈ flips (bivalueAt m c).cells := by
  obtain ⟨y, hy, hx⟩ := h.exists_twoCells?
  simpa [bivalueAt, hy] using hx

theorem Bivalued.of (h : Bivalued m cellsOnly c x) : (bivalueAt m c).Of m :=
  ⟨h.active, twoCells?_some h.twoCells?⟩

/-- What the search takes for a constraint with two candidates is one, whichever way its cells
are turned. -/
theorem bivalued_of_mem (hc : c ∈ bivalueConstraints m cellsOnly) {y : CellPair}
    (hy : m.twoCells? c = some y) (hx : x ∈ flips y) : Bivalued m cellsOnly c x := by
  obtain ⟨htwo, hkind⟩ := List.mem_filter.mp hc
  have hself : Bivalued m cellsOnly c y := by
    refine ⟨mem_activeConstraintsOfLen htwo, ?_, ?_⟩
    · rintro rfl
      simpa using hkind
    · rw [twoCells?_some hy]
  rcases List.mem_pair.mp hx with rfl | rfl
  · exact hself
  · exact hself.turn

/-- Three of them that are pairwise apart are not passed over, if they have an answer in whatever
order they are met. -/
theorem firstTriple_ne_none_of_bivalued (hm : m.Coherent) (hf : m.Fits) {β : Type}
    {f : ConstraintId → ConstraintId → ConstraintId → Option β} {u v w : ConstraintId}
    {a b c : CellPair} (hu : Bivalued m cellsOnly u a) (hv : Bivalued m cellsOnly v b)
    (hw : Bivalued m cellsOnly w c) (hapart : [u, v, w].Pairwise m.Apart)
    (hanswer : ∀ c₁ c₂ c₃, [c₁, c₂, c₃].Perm [u, v, w] → f c₁ c₂ c₃ ≠ none) :
    firstTriple (fun a b => !m.intersects a b) f (bivalueConstraints m cellsOnly) ≠ none := by
  have htwo : ∀ k ∈ [u, v, w], ∃ x, Bivalued m cellsOnly k x := by
    simp only [List.forall_mem_cons, List.not_mem_nil, false_imp_iff, implies_true, and_true]
    exact ⟨⟨a, hu⟩, ⟨b, hv⟩, ⟨c, hw⟩⟩
  have hactive : ∀ k ∈ [u, v, w], k ∈ m.activeConstraints := fun k hk =>
    (htwo k hk).choose_spec.active
  refine firstTriple_ne_none_of_perm (p := u) (q := v) (r := w) (fun k hk => ?_) ?_ ?_ hanswer
  · exact (htwo k hk).choose_spec.mem_bivalueConstraints hm
  · exact nodup_of_apart hapart fun k hk => (htwo k hk).choose_spec.candidatesIn_ne_empty
  · intro k hk l hl hne
    rw [Bool.not_eq_true', hm.intersects_eq_false_iff hf (hactive k hk) (hactive l hl)]
    exact apart_of_pairwise hapart hk hl hne

end Strategy

end ExactCover
