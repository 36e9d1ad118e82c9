/-
ExactCover.Proofs.Patterns.Rectangles — the search for rectangles is exact.

`TwoWay` says what a rectangle is: three corners, each turned so that one of its two
cells stands on either side, and two cells of a wider constraint that close both sides.
Neighbours conflict all around, and no constraint is hit by an odd number of the eight
candidates.

The search tries three of the six orders of the corners and four of the eight ways to
turn them. It misses nothing: a rectangle is the same when it is gone around the other
way (`TwoWay.reflect`) and when its sides change places (`TwoWay.turn`). One of the two
ways around has its corners in an order that is tried (`mem_orders_or_reversed`), and
then one of the two sides has the first corner as it stands in its column
(`TwoWay.checkRectangle_ne_none`).
-/
import ExactCover.Proofs.Names
import ExactCover.Proofs.Patterns.Basic
import ExactCover.Proofs.Placements

namespace ExactCover

namespace Matrix

variable {P : Type} {m : Matrix P}

/-! ## What candidates touch -/

/-- The constraints of some candidates, one candidate after another. -/
def touched (m : Matrix P) (rs : List CandidateId) : List ConstraintId :=
  rs.flatMap fun r => (m.row r).map m.constraintOf

theorem mem_touched {rs : List CandidateId} {c : ConstraintId} :
    c ∈ m.touched rs ↔ ∃ r ∈ rs, m.Hits r c := by
  simp only [touched, List.mem_flatMap, List.mem_map, Hits]

/-- A candidate has a constraint once, so it is touched by as many as hit it. -/
theorem Coherent.count_touched (hm : m.Coherent) {rs : List CandidateId}
    (hrs : ∀ r ∈ rs, m.isCandidateActive r = true) (c : ConstraintId) :
    (m.touched rs).count c = rs.countP fun r => m.Hits r c := by
  induction rs with
  | nil => rfl
  | cons r rs ih =>
    have hrest := ih fun q hq => hrs q (List.mem_cons_of_mem r hq)
    have hnodup : ((m.row r).map m.constraintOf).Nodup :=
      (hm.laid.row_ascending r (hm.hasCandidate (hrs r List.mem_cons_self))).imp Nat.ne_of_lt
    have hone : ((m.row r).map m.constraintOf).count c = if m.Hits r c then 1 else 0 := by
      rw [hnodup.count]
      exact if_congr List.mem_map rfl rfl
    unfold touched at hrest ⊢
    rw [List.flatMap_cons, List.count_append, hrest, hone, List.countP_cons, Nat.add_comm]
    simp only [decide_eq_true_eq]

end Matrix

namespace Strategy

open ExactCover.Matrix

open Coherent (Shares)

variable {P : Type} {m : Matrix P} {cellsOnly : Bool}

/-! ## Rectangles -/

/-- Of the four cells on one side of a rectangle, neighbours conflict. -/
structure Around (m : Matrix P) (first middle last fourth : CellId) : Prop where
  first_middle : Shares m (m.candidateOf first) (m.candidateOf middle)
  middle_last : Shares m (m.candidateOf middle) (m.candidateOf last)
  last_fourth : Shares m (m.candidateOf last) (m.candidateOf fourth)
  fourth_first : Shares m (m.candidateOf fourth) (m.candidateOf first)

/-- Three corners `u`, `v` and `w` in a row, with cells `a`, `b` and `c` that are turned so that
their first ones stand on one side of a rectangle and the others on the other side, and two
candidates of a fourth constraint that close it. Nothing distinguishes the two ways to fill the
rectangle. -/
structure TwoWay (m : Matrix P) (cellsOnly : Bool) (u v w fourth : ConstraintId)
    (a b c extra : CellPair) : Prop where
  first : Bivalued m cellsOnly u a
  middle : Bivalued m cellsOnly v b
  last : Bivalued m cellsOnly w c
  apart : [u, v, w].Pairwise m.Apart
  fourth_active : fourth ∈ m.activeConstraints
  wide : 2 < (m.candidatesIn fourth).card
  extra_cells : extra.1 ∈ m.column fourth ∧ extra.2 ∈ m.column fourth
  different : m.candidateOf extra.1 ≠ m.candidateOf extra.2
  outside : ∀ x ∈ [extra.1, extra.2], ∀ y ∈ [a.1, a.2, b.1, b.2, c.1, c.2],
    m.candidateOf x ≠ m.candidateOf y
  first_side : Around m a.1 b.1 c.1 extra.1
  second_side : Around m a.2 b.2 c.2 extra.2
  even : ∀ k, ([a.1, a.2, b.1, b.2, c.1, c.2, extra.1, extra.2].map m.candidateOf).countP
    (fun r => m.Hits r k) % 2 = 0

/-- A rectangle rules out the two candidates that close it. -/
inductive ShowsRectangle (m : Matrix P) (cellsOnly : Bool) :
    Pattern → (CandidateId → Prop) → Prop
  | rectangle {u v w fourth : ConstraintId} {a b c extra : CellPair} :
      TwoWay m cellsOnly u v w fourth a b c extra →
      ShowsRectangle m cellsOnly (.rectangle [u, v, w] fourth extra)
        fun r => r = m.candidateOf extra.1 ∨ r = m.candidateOf extra.2

section Symmetry

variable {u v w fourth : ConstraintId} {a b c extra : CellPair}

theorem Around.reverse {x y z t : CellId} (h : Around m x y z t) : Around m z y x t :=
  ⟨Shares.symm h.middle_last, Shares.symm h.first_middle, Shares.symm h.fourth_first,
    Shares.symm h.last_fourth⟩

/-- A rectangle can be gone around the other way. -/
theorem TwoWay.reflect (h : TwoWay m cellsOnly u v w fourth a b c extra) :
    TwoWay m cellsOnly w v u fourth c b a extra where
  first := h.last
  middle := h.middle
  last := h.first
  apart := pairwise_apart_of_perm h.apart (List.reverse_perm [u, v, w])
  fourth_active := h.fourth_active
  wide := h.wide
  extra_cells := h.extra_cells
  different := h.different
  outside x hx y hy := h.outside x hx y (by
    simp only [List.mem_cons, List.not_mem_nil, or_false] at hy ⊢
    tauto)
  first_side := h.first_side.reverse
  second_side := h.second_side.reverse
  even k := by
    have heven := h.even k
    simp only [List.map_cons, List.map_nil, List.countP_cons, List.countP_nil] at heven ⊢
    omega

/-- Its two sides can change places. -/
theorem TwoWay.turn (h : TwoWay m cellsOnly u v w fourth a b c extra) :
    TwoWay m cellsOnly u v w fourth (a.2, a.1) (b.2, b.1) (c.2, c.1) (extra.2, extra.1) where
  first := h.first.turn
  middle := h.middle.turn
  last := h.last.turn
  apart := h.apart
  fourth_active := h.fourth_active
  wide := h.wide
  extra_cells := h.extra_cells.symm
  different := h.different.symm
  outside x hx y hy := by
    simp only [List.mem_cons, List.not_mem_nil, or_false] at hx hy
    exact h.outside x (by simpa using hx.symm) y (by simp; tauto)
  first_side := h.second_side
  second_side := h.first_side
  even k := by
    have heven := h.even k
    simp only [List.map_cons, List.map_nil, List.countP_cons, List.countP_nil] at heven ⊢
    omega

end Symmetry

/-! ## Chains -/

section Chains

variable {u v w : Bivalue} {k : Chain} {x y : CellId} {extra : CellPair}

/-- A chain has the corners in one of three orders, the middle and the last one turned somehow. -/
theorem mem_chains : k ∈ chains m u v w ↔
    ∃ roles ∈ [(u, v, w), (v, u, w), (u, w, v)],
      k.corners = [roles.1.constraint, roles.2.1.constraint, roles.2.2.constraint] ∧
      k.first = roles.1.cells ∧ k.middle ∈ flips roles.2.1.cells ∧
      k.last ∈ flips roles.2.2.cells ∧ k.isAligned m = true := by
  unfold chains
  constructor
  · intro h
    obtain ⟨roles, hroles, h⟩ := List.mem_flatMap.mp h
    obtain ⟨middle, hmiddle, h⟩ := List.mem_flatMap.mp h
    obtain ⟨last, hlast, h⟩ := List.mem_flatMap.mp h
    dsimp only at h
    split at h
    · next haligned =>
      cases List.mem_singleton.mp h
      exact ⟨roles, hroles, rfl, rfl, hmiddle, hlast, haligned⟩
    · cases h
  · intro h
    obtain ⟨roles, hroles, hcorners, hfirst, hmiddle, hlast, haligned⟩ := h
    refine List.mem_flatMap.mpr ⟨roles, hroles, List.mem_flatMap.mpr ⟨k.middle, hmiddle,
      List.mem_flatMap.mpr ⟨k.last, hlast, ?_⟩⟩⟩
    obtain ⟨corners, first, middle, last⟩ := k
    cases hcorners
    cases hfirst
    dsimp only
    rw [if_pos haligned]
    exact List.mem_singleton_self _

/-- Of three in a row, the orders that chains have are all there are, but for the direction. -/
theorem mem_orders_or_reversed {α : Type} {a b c p q r : α} (h : [p, q, r].Perm [a, b, c]) :
    (p, q, r) ∈ [(a, b, c), (b, a, c), (a, c, b)] ∨
      (r, q, p) ∈ [(a, b, c), (b, a, c), (a, c, b)] := by
  have hroles := mem_wingRoles.mpr h
  simp only [wingRoles, List.mem_cons, Prod.mk.injEq, List.not_mem_nil, or_false] at hroles
  rcases hroles with ⟨rfl, rfl, rfl⟩ | ⟨rfl, rfl, rfl⟩ | ⟨rfl, rfl, rfl⟩ | ⟨rfl, rfl, rfl⟩ |
    ⟨rfl, rfl, rfl⟩ | ⟨rfl, rfl, rfl⟩ <;> simp

theorem perm_of_mem_orders {α : Type} {a b c : α} {roles : α × α × α}
    (h : roles ∈ [(a, b, c), (b, a, c), (a, c, b)]) :
    [roles.1, roles.2.1, roles.2.2].Perm [a, b, c] := by
  obtain ⟨p, q, r⟩ := roles
  refine mem_wingRoles.mp ?_
  simp only [wingRoles, List.mem_cons, List.not_mem_nil, or_false] at h ⊢
  rcases h with h | h | h <;> simp only [h, true_or, or_true]

theorem mem_of_mem_flips {α : Type} {p q : α × α} (h : p ∈ flips q) {g : α} :
    g = p.1 ∨ g = p.2 ↔ g = q.1 ∨ g = q.2 := by
  rcases List.mem_pair.mp h with rfl | rfl
  · rfl
  · exact or_comm

/-- All chains of three corners have the same six cells. -/
theorem mem_cells_of_chains (h : k ∈ chains m u v w) {g : CellId} :
    g ∈ k.cells ↔ g ∈ [u, v, w].flatMap fun b => [b.cells.1, b.cells.2] := by
  obtain ⟨roles, hroles, -, hfirst, hmiddle, hlast, -⟩ := mem_chains.mp h
  have hcells : g ∈ k.cells ↔ (g = roles.1.cells.1 ∨ g = roles.1.cells.2) ∨
      (g = roles.2.1.cells.1 ∨ g = roles.2.1.cells.2) ∨
      (g = roles.2.2.cells.1 ∨ g = roles.2.2.cells.2) := by
    rw [← mem_of_mem_flips hmiddle, ← mem_of_mem_flips hlast, ← hfirst]
    simp only [Chain.cells, List.mem_cons, List.not_mem_nil, or_false, or_assoc]
  rw [hcells]
  simp only [List.mem_cons, List.not_mem_nil, or_false] at hroles
  simp only [List.flatMap_cons, List.flatMap_nil, List.append_nil, List.mem_append, List.mem_cons,
    List.not_mem_nil, or_false]
  rcases hroles with rfl | rfl | rfl
  · rfl
  · exact or_left_comm
  · exact or_congr_right or_comm

theorem Chain.isAligned_and_isClosedBy_iff (hm : m.Coherent) (hf : m.Fits) :
    k.isAligned m = true ∧ k.isClosedBy m x y = true ↔
      Around m k.first.1 k.middle.1 k.last.1 x ∧ Around m k.first.2 k.middle.2 k.last.2 y := by
  simp only [isAligned, isClosedBy, Bool.and_eq_true, hm.cellsConflict_iff hf]
  constructor
  · intro h
    obtain ⟨⟨⟨⟨h₁, h₂⟩, h₃⟩, h₄⟩, ⟨⟨h₅, h₆⟩, h₇⟩, h₈⟩ := h
    exact ⟨⟨h₁, h₂, h₅, h₆⟩, ⟨h₃, h₄, h₇, h₈⟩⟩
  · intro h
    obtain ⟨⟨h₁, h₂, h₅, h₆⟩, ⟨h₃, h₄, h₇, h₈⟩⟩ := h
    exact ⟨⟨⟨⟨h₁, h₂⟩, h₃⟩, h₄⟩, ⟨⟨h₅, h₆⟩, h₇⟩, h₈⟩

/-- Nothing distinguishes the candidates if every constraint, also one that none of them touches, is
touched an even number of times. -/
theorem Chain.isUndistinguished_iff : k.isUndistinguished m x y = true ↔
    ∀ c, (m.touched ((k.cells ++ [x, y]).map m.candidateOf)).count c % 2 = 0 := by
  have htouched : m.touched ((k.cells ++ [x, y]).map m.candidateOf) =
      (k.cells ++ [x, y]).flatMap fun h => (m.row (m.candidateOf h)).map m.constraintOf := by
    rw [touched, List.flatMap_map]
  rw [htouched, isUndistinguished, List.all_eq_true]
  simp only [beq_iff_eq]
  refine ⟨fun h c => ?_, fun h c _ => h c⟩
  by_cases hc : c ∈ (k.cells ++ [x, y]).flatMap fun h =>
      (m.row (m.candidateOf h)).map m.constraintOf
  · exact h c hc
  · rw [List.count_eq_zero_of_not_mem hc]

theorem Chain.isUndistinguished_comm :
    k.isUndistinguished m x y = k.isUndistinguished m y x := by
  have hperm : ((k.cells ++ [x, y]).map m.candidateOf).Perm
      ((k.cells ++ [y, x]).map m.candidateOf) := ((List.Perm.swap ..).append_left _).map _
  rw [Bool.eq_iff_iff, isUndistinguished_iff, isUndistinguished_iff]
  simp only [touched, (hperm.flatMap_right _).count_eq]

theorem Chain.closing?_some (h : k.closing? m x y = some extra) :
    (extra = (x, y) ∨ extra = (y, x)) ∧ k.isClosedBy m extra.1 extra.2 = true ∧
      k.isUndistinguished m extra.1 extra.2 = true := by
  unfold closing? at h
  obtain ⟨hextra, heven⟩ := Option.filter_eq_some_iff.mp h
  split at hextra
  · next hclosed =>
    cases hextra
    exact ⟨Or.inl rfl, hclosed, heven⟩
  · split at hextra
    · next hclosed =>
      cases hextra
      exact ⟨Or.inr rfl, hclosed, heven⟩
    · cases hextra

/-- Two cells that close a chain are not passed over, in whatever order they are met. -/
theorem Chain.closing?_ne_none (hclosed : k.isClosedBy m extra.1 extra.2 = true)
    (heven : k.isUndistinguished m extra.1 extra.2 = true)
    (hperm : [x, y].Perm [extra.1, extra.2]) : k.closing? m x y ≠ none := by
  rcases List.perm_pair.mp hperm with h | h
  · cases h
    simp [closing?, hclosed, heven]
  · cases h
    have heven' := isUndistinguished_comm.trans heven
    by_cases hother : k.isClosedBy m extra.2 extra.1 = true
    · simp [closing?, hother, heven']
    · simp [closing?, hother, hclosed, heven]

end Chains

/-- The candidates of the corners and of the cells that close a rectangle are active. -/
theorem active_of_cells (hm : m.Coherent) {u v w fourth : ConstraintId} {a b c extra : CellPair}
    (ha : Bivalued m cellsOnly u a) (hb : Bivalued m cellsOnly v b) (hc : Bivalued m cellsOnly w c)
    (hfourth : fourth ∈ m.activeConstraints)
    (hextra : extra.1 ∈ m.column fourth ∧ extra.2 ∈ m.column fourth) :
    ∀ r ∈ [a.1, a.2, b.1, b.2, c.1, c.2, extra.1, extra.2].map m.candidateOf,
      m.isCandidateActive r = true := by
  have hactive := fun {k : ConstraintId} {x : CellId} (hk : k ∈ m.activeConstraints) =>
    hm.active_of_column (h := x) hk
  simp only [List.map_cons, List.map_nil, List.forall_mem_cons, List.not_mem_nil, false_imp_iff,
    implies_true, and_true]
  exact ⟨hactive ha.active ha.mem_column.1, hactive ha.active ha.mem_column.2,
    hactive hb.active hb.mem_column.1, hactive hb.active hb.mem_column.2,
    hactive hc.active hc.mem_column.1, hactive hc.active hc.mem_column.2,
    hactive hfourth hextra.1, hactive hfourth hextra.2⟩

/-! ## What is found is a rectangle -/

section Sound

variable {u v w : Bivalue} {fourth : ConstraintId} {k : Chain} {x y : CellId} {extra : CellPair}

theorem Bivalue.Of.bivalued (hu : u.Of m) (hc : u.constraint ∈ bivalueConstraints m cellsOnly)
    {x : CellPair} (hx : x ∈ flips u.cells) : Bivalued m cellsOnly u.constraint x :=
  bivalued_of_mem hc (by rw [twoCells?, hu.column]) hx

/-- The corners of a chain, in its order, are three constraints with two candidates, pairwise
apart. -/
theorem IsRectangle.corners_of_chain (h : IsRectangle m u v w fourth k x y extra)
    (hm : m.Coherent) (hf : m.Fits)
    (htwo : ∀ c ∈ [u.constraint, v.constraint, w.constraint], c ∈ bivalueConstraints m cellsOnly) :
    ∃ p q r, k.corners = [p, q, r] ∧ Bivalued m cellsOnly p k.first ∧
      Bivalued m cellsOnly q k.middle ∧ Bivalued m cellsOnly r k.last ∧
      [p, q, r].Pairwise m.Apart ∧ k.isAligned m = true := by
  obtain ⟨roles, hroles, hcorners, hfirst, hmiddle, hlast, haligned⟩ := mem_chains.mp h.chain
  have hperm := perm_of_mem_orders hroles
  have hbivalued : ∀ b ∈ [roles.1, roles.2.1, roles.2.2], ∀ x ∈ flips b.cells,
      Bivalued m cellsOnly b.constraint x := fun b hb x hx =>
    (h.corners b (hperm.subset hb)).bivalued
      (htwo _ (List.mem_map_of_mem (f := Bivalue.constraint) (hperm.subset hb))) hx
  obtain ⟨huv, huw, hvw⟩ := h.disjoint
  have hapart : [u.constraint, v.constraint, w.constraint].Pairwise m.Apart := by
    refine hm.pairwise_apart hf (fun c hc => ?_) huv huw hvw
    exact mem_activeConstraintsOfLen (List.mem_filter.mp (htwo c hc)).1
  exact ⟨_, _, _, hcorners, hbivalued _ (by simp) _ (hfirst ▸ List.mem_cons_self),
    hbivalued _ (by simp) _ hmiddle, hbivalued _ (by simp) _ hlast,
    pairwise_apart_of_perm hapart (hperm.map Bivalue.constraint), haligned⟩

/-- The two cells that are picked from the fourth constraint are of different candidates, which are
none of the corners'. -/
theorem IsRectangle.extra_of_pair (h : IsRectangle m u v w fourth k x y extra) (hm : m.Coherent) :
    [x, y].Perm [extra.1, extra.2] ∧ m.candidateOf extra.1 ≠ m.candidateOf extra.2 ∧
      ∀ g ∈ [extra.1, extra.2], g ∈ m.column fourth ∧
        ∀ i ∈ k.cells, m.candidateOf g ≠ m.candidateOf i := by
  have hperm : [x, y].Perm [extra.1, extra.2] := by
    rcases (Chain.closing?_some h.closed).1 with rfl | rfl
    · rfl
    · exact .swap ..
  have hnodup : ([x, y].map m.candidateOf).Nodup :=
    (hm.column_candidates_nodup (hm.mem_activeConstraints.mp h.fourth_active).1).sublist
      (h.cells.map m.candidateOf)
  refine ⟨hperm, ?_, fun g hg => ⟨h.cells.subset (hperm.symm.subset hg), fun i hi heq => ?_⟩⟩
  · simpa using (hperm.map m.candidateOf).nodup_iff.mp hnodup
  · obtain ⟨k', hk', hout⟩ := h.outside
    have hi' := (mem_cells_of_chains hk').mpr ((mem_cells_of_chains h.chain).mp hi)
    exact hout g (hperm.symm.subset hg) (heq ▸ List.mem_map_of_mem hi')

theorem IsRectangle.twoWay (h : IsRectangle m u v w fourth k x y extra) (hm : m.Coherent)
    (hf : m.Fits)
    (htwo : ∀ c ∈ [u.constraint, v.constraint, w.constraint], c ∈ bivalueConstraints m cellsOnly)
    (hwide : 2 < m.len fourth) :
    ∃ p q r, k.corners = [p, q, r] ∧
      TwoWay m cellsOnly p q r fourth k.first k.middle k.last extra := by
  obtain ⟨p, q, r, hcorners, hp, hq, hr, hapart, haligned⟩ := h.corners_of_chain hm hf htwo
  obtain ⟨-, hne, hextra⟩ := h.extra_of_pair hm
  obtain ⟨-, hclosed, heven⟩ := Chain.closing?_some h.closed
  obtain ⟨hfirst, hsecond⟩ := (Chain.isAligned_and_isClosedBy_iff hm hf).mp ⟨haligned, hclosed⟩
  have hcells := And.intro (hextra extra.1 (by simp)).1 (hextra extra.2 (by simp)).1
  have hactive := active_of_cells hm hp hq hr h.fourth_active hcells
  refine ⟨p, q, r, hcorners,
    { first := hp, middle := hq, last := hr, apart := hapart, fourth_active := h.fourth_active
      wide := ?_, extra_cells := hcells, different := hne
      outside := fun g hg i hi => (hextra g hg).2 i hi
      first_side := hfirst, second_side := hsecond, even := fun c => ?_ }⟩
  · rwa [hm.card_candidatesIn (hm.mem_activeConstraints.mp h.fourth_active).1]
  · rw [← hm.count_touched hactive]
    exact Chain.isUndistinguished_iff.mp heven c

theorem findRectangle_sound (hm : m.Coherent) (hf : m.Fits) {d : Deduction}
    (h : findRectangle m cellsOnly = some d) :
    ∃ gone, ShowsRectangle m cellsOnly d.pattern gone ∧ (∃ r, gone r) ∧ d.Eliminates m gone := by
  obtain ⟨u, v, w, fourth, k, x, y, extra, hrect, htwo, hwide, rfl⟩ := findRectangle_some h
  obtain ⟨p, q, r, hcorners, hshown⟩ := hrect.twoWay hm hf htwo hwide
  have hperm := (hrect.extra_of_pair hm).1
  have hpattern : (rectangle m cellsOnly k.corners fourth x y extra).pattern =
      .rectangle [p, q, r] fourth extra := by rw [← hcorners]; rfl
  refine ⟨fun g => g = m.candidateOf extra.1 ∨ g = m.candidateOf extra.2, ?_, ⟨_, Or.inl rfl⟩,
    Deduction.eliminates_distinct rfl fun g => ?_⟩
  · rw [hpattern]
    exact .rectangle hshown
  · rw [(hperm.map m.candidateOf).mem_iff]
    simp

end Sound

/-! ## No rectangle is passed over -/

section Complete

/-- A chain of three constraints that is closed by two cells of a wide one is not passed over. -/
theorem checkRectangle_ne_none {wide : List ConstraintId} {u v w : Bivalue} {k : Chain}
    {fourth : ConstraintId} {extra : CellPair}
    (hcells : ∀ b ∈ [u, v, w], m.twoCells? b.constraint = some b.cells) (hk : k ∈ chains m u v w)
    (hfourth : fourth ∈ wide) (hne : extra.1 ≠ extra.2)
    (hextra : ∀ g ∈ [extra.1, extra.2], g ∈ m.column fourth ∧
      ∀ i ∈ k.cells, m.candidateOf g ≠ m.candidateOf i)
    (hclosed : k.isClosedBy m extra.1 extra.2 = true)
    (heven : k.isUndistinguished m extra.1 extra.2 = true) :
    checkRectangle m cellsOnly wide u.constraint v.constraint w.constraint ≠ none := by
  unfold checkRectangle
  simp only [hcells u (by simp), hcells v (by simp), hcells w (by simp)]
  split
  · next hnil =>
    rw [hnil] at hk
    cases hk
  · next k' ks hchains =>
    have hk' : k' ∈ chains m u v w := hchains ▸ List.mem_cons_self
    have hkept : ∀ g ∈ [extra.1, extra.2], g ∈ (m.column fourth).filter fun h =>
        !(k'.cells.map m.candidateOf).contains (m.candidateOf h) := by
      intro g hg
      refine List.mem_filter.mpr ⟨(hextra g hg).1, ?_⟩
      simp only [List.contains_eq_mem, Bool.not_eq_true', decide_eq_false_iff_not]
      intro hmem
      obtain ⟨i, hi, heq⟩ := List.mem_map.mp hmem
      have hi' := (mem_cells_of_chains hk).mpr ((mem_cells_of_chains hk').mp hi)
      exact (hextra g hg).2 i hi' heq.symm
    obtain ⟨x, y, hsub, hperm⟩ :=
      exists_sublist_pair (hkept extra.1 (by simp)) (hkept extra.2 (by simp)) hne
    refine findSome?_ne_none hfourth (findSome?_ne_none (hchains ▸ hk) (firstPair_ne_none hsub ?_))
    rw [Ne, Option.map_eq_none_iff]
    exact Chain.closing?_ne_none hclosed heven hperm

variable {u v w fourth c₁ c₂ c₃ : ConstraintId} {a b c extra : CellPair}
  {wide : List ConstraintId}

/-- A rectangle is found that has its corners in an order that is tried and its first corner as it
stands in its column. -/
theorem TwoWay.checkRectangle_of_first (h : TwoWay m cellsOnly u v w fourth a b c extra)
    (hm : m.Coherent) (hf : m.Fits) (hfourth : fourth ∈ wide)
    (horder : (bivalueAt m u, bivalueAt m v, bivalueAt m w) ∈
      [(bivalueAt m c₁, bivalueAt m c₂, bivalueAt m c₃),
        (bivalueAt m c₂, bivalueAt m c₁, bivalueAt m c₃),
        (bivalueAt m c₁, bivalueAt m c₃, bivalueAt m c₂)])
    (ha : a = (bivalueAt m u).cells) : checkRectangle m cellsOnly wide c₁ c₂ c₃ ≠ none := by
  have hperm := perm_of_mem_orders horder
  have hcells : ∀ b ∈ [bivalueAt m u, bivalueAt m v, bivalueAt m w],
      m.twoCells? b.constraint = some b.cells := by
    simp only [List.forall_mem_cons, List.not_mem_nil, false_imp_iff, implies_true, and_true]
    exact ⟨h.first.twoCells?, h.middle.twoCells?, h.last.twoCells?⟩
  obtain ⟨haligned, hclosed⟩ := (Chain.isAligned_and_isClosedBy_iff (k := ⟨[u, v, w], a, b, c⟩)
    hm hf).mpr ⟨h.first_side, h.second_side⟩
  refine checkRectangle_ne_none (fun b hb => hcells b (hperm.symm.subset hb))
    (mem_chains.mpr ⟨_, horder, rfl, ha, h.middle.mem_flips, h.last.mem_flips, haligned⟩) hfourth
    (fun heq => h.different (heq ▸ rfl)) (fun g hg => ⟨?_, h.outside g hg⟩) hclosed
    (Chain.isUndistinguished_iff.mpr fun k => ?_)
  · rcases List.mem_pair.mp hg with rfl | rfl
    · exact h.extra_cells.1
    · exact h.extra_cells.2
  · have hactive := active_of_cells hm h.first h.middle h.last h.fourth_active h.extra_cells
    exact (congrArg (· % 2) (hm.count_touched hactive k)).trans (h.even k)

/-- The side on which the first corner has its first cell can be chosen. -/
theorem TwoWay.checkRectangle_of_order (h : TwoWay m cellsOnly u v w fourth a b c extra)
    (hm : m.Coherent) (hf : m.Fits) (hfourth : fourth ∈ wide)
    (horder : (bivalueAt m u, bivalueAt m v, bivalueAt m w) ∈
      [(bivalueAt m c₁, bivalueAt m c₂, bivalueAt m c₃),
        (bivalueAt m c₂, bivalueAt m c₁, bivalueAt m c₃),
        (bivalueAt m c₁, bivalueAt m c₃, bivalueAt m c₂)]) :
    checkRectangle m cellsOnly wide c₁ c₂ c₃ ≠ none := by
  rcases List.mem_pair.mp h.first.mem_flips with ha | ha
  · exact h.checkRectangle_of_first hm hf hfourth horder ha
  · exact h.turn.checkRectangle_of_first hm hf hfourth horder (by rw [ha])

/-- A rectangle is found in whatever order its corners are met. -/
theorem TwoWay.checkRectangle_ne_none (h : TwoWay m cellsOnly u v w fourth a b c extra)
    (hm : m.Coherent) (hf : m.Fits) (hfourth : fourth ∈ wide)
    (hperm : [c₁, c₂, c₃].Perm [u, v, w]) : checkRectangle m cellsOnly wide c₁ c₂ c₃ ≠ none := by
  rcases mem_orders_or_reversed (hperm.symm.map (bivalueAt m)) with horder | horder
  · exact h.checkRectangle_of_order hm hf hfourth horder
  · exact h.reflect.checkRectangle_of_order hm hf hfourth horder

theorem TwoWay.findRectangle_ne_none (h : TwoWay m cellsOnly u v w fourth a b c extra)
    (hm : m.Coherent) (hf : m.Fits) : findRectangle m cellsOnly ≠ none := by
  have hfourth : fourth ∈ m.activeConstraints.filter fun c => m.len c > 2 := by
    have hlen := hm.card_candidatesIn (hm.mem_activeConstraints.mp h.fourth_active).1
    exact List.mem_filter.mpr ⟨h.fourth_active, decide_eq_true (hlen ▸ h.wide)⟩
  unfold findRectangle
  split
  · next hnil =>
    rw [hnil] at hfourth
    cases hfourth
  · exact firstTriple_ne_none_of_bivalued hm hf h.first h.middle h.last h.apart
      fun c₁ c₂ c₃ hperm => h.checkRectangle_ne_none hm hf hfourth hperm

end Complete

end Strategy

/-- Two rows and two columns of cells. The second cell lists its candidates the other way round, so
the rectangle is closed by `r1c1d2` first and `r1c1d1` second. When the third candidate of the
first cell, `r0c0d3`, is eliminated, nothing outside tells the two ways to fill it apart. -/
def sampleSquare : Matrix Unit :=
  (Matrix.empty.constrainedAll
    [⟨"r0c0", .cell, true⟩, ⟨"r0c1", .cell, true⟩, ⟨"r1c0", .cell, true⟩, ⟨"r1c1", .cell, true⟩,
      ⟨"r0d1", .other, false⟩, ⟨"r0d2", .other, false⟩, ⟨"r1d1", .other, false⟩,
      ⟨"r1d2", .other, false⟩, ⟨"c0d1", .other, false⟩, ⟨"c0d2", .other, false⟩,
      ⟨"c1d1", .other, false⟩, ⟨"c1d2", .other, false⟩]).peopledAll
    [⟨"r0c0d1", (), [1, 5, 9]⟩, ⟨"r0c0d2", (), [1, 6, 10]⟩, ⟨"r0c0d3", (), [1]⟩,
      ⟨"r0c1d2", (), [2, 6, 12]⟩, ⟨"r0c1d1", (), [2, 5, 11]⟩, ⟨"r1c0d1", (), [3, 7, 9]⟩,
      ⟨"r1c0d2", (), [3, 8, 10]⟩, ⟨"r1c1d1", (), [4, 7, 11]⟩, ⟨"r1c1d2", (), [4, 8, 12]⟩,
      ⟨"r1c1d3", (), [4]⟩]

theorem built_sampleSquare : sampleSquare.Built :=
  (Matrix.Built.empty.constrainedAll (by decide +kernel) (by decide +kernel)).peopledAll
    (by decide +kernel) (by decide +kernel) (by decide +kernel)

section Exact

variable {P : Type}

/-- In every state that is reached, the search for rectangles finds nothing only if there are no
three corners, in whatever order and turned in whatever way, that a wider constraint closes to a
rectangle of which nothing distinguishes the two ways to fill it. What it reports is such a
rectangle, and it eliminates just the two candidates that close it. -/
theorem Reached.findRectangle_exact {es : List Entry} {m : Matrix P} (h : Reached es m)
    (hf : m.Fits) (cellsOnly : Bool) :
    Finds m (Strategy.findRectangle m cellsOnly) (Strategy.ShowsRectangle m cellsOnly) := by
  refine .intro (fun d hd => Strategy.findRectangle_sound h.coherent hf hd) ?_
  intro pattern gone r hshows _
  cases hshows with
  | rectangle hshown => exact hshown.findRectangle_ne_none h.coherent hf

theorem Reached.findRectangle_exact_sampleSquare :
    ∃ (m : Matrix Unit) (d : Deduction), Reached [.move (.eliminate 19)] m ∧
      Strategy.findRectangle m true = some d ∧
      d.pattern = .rectangle [2, 1, 3] 4 (35, 32) ∧
      d.eliminations.map m.candidateOf = [8, 9] ∧
      (∃ gone, Strategy.ShowsRectangle m true d.pattern gone ∧ d.Eliminates m gone) ∧
      Strategy.findRectangle sampleSquare true = none ∧
      ¬ ∃ pattern gone, Strategy.ShowsRectangle sampleSquare true pattern gone ∧ ∃ r, gone r := by
  have hbuilt : Reached [] sampleSquare := .built built_sampleSquare
  have hfits : sampleSquare.Fits := ⟨by decide, by decide⟩
  have hreached : Reached [.move (.eliminate 19)] (sampleSquare.eliminateRow 19).matrix :=
    hbuilt.move (a := .eliminate 19)
      (by decide +kernel : sampleSquare.isCandidateActive (sampleSquare.candidateOf 19) = true)
  have hboard := (Matrix.relinked_eliminateRow sampleSquare 19).board
  have hnone : Strategy.findRectangle sampleSquare true = none := by decide +kernel
  have hfound : (Strategy.findRectangle (sampleSquare.eliminateRow 19).matrix true).map
      (fun d => (d.pattern, d.eliminations.map sampleSquare.candidateOf)) =
      some (.rectangle [2, 1, 3] 4 (35, 32), [8, 9]) := by decide +kernel
  obtain ⟨d, hd, heq⟩ := Option.map_eq_some_iff.mp hfound
  obtain ⟨hpattern, heliminations⟩ := Prod.mk.inj heq
  rw [← Matrix.candidateOf_of_board hboard] at heliminations
  obtain ⟨gone, hshows, -, heliminates⟩ :=
    (Reached.findRectangle_exact hreached (hfits.of_board hboard) true).reports d hd
  exact ⟨_, d, hreached, hd, hpattern, heliminations, ⟨gone, hshows, heliminates⟩, hnone,
    (Reached.findRectangle_exact hbuilt hfits true).none_iff.mp hnone⟩

end Exact

end ExactCover
