/-
ExactCover.Proofs.Rectangles — when a rectangle cannot be part of a unique solution.

Of the eight candidates of a rectangle a cover that has one of the two extra cells
has the four of one way to fill it. If the four of the other way touch the same
constraints, each of them once, they can take their place (`ResidualCover.swap`),
and the cover is not the only one. `Facing` has what that takes of a rectangle
(`TwoWay.facing`).

That every constraint is touched an even number of times is not enough for that:
one of the other four may have more constraints than another, so that two of them
meet in a constraint of their own (`sampleRectangle`). It is enough where all
candidates have the same number of constraints, as on the board of a sudoku: then
the constraints of the four that are in the cover, being different, are all that
the other four can touch (`perm_touched`).
-/
import Mathlib.Data.List.Pairwise
import ExactCover.Proofs.Patterns.Rectangles

namespace ExactCover

namespace Matrix

variable {P : Type} {m : Matrix P}

open Coherent (Shares)

/-- All active candidates have the same number of constraints. -/
def Regular (m : Matrix P) : Prop :=
  ∀ q r, m.isCandidateActive q = true → m.isCandidateActive r = true →
    (m.row q).length = (m.row r).length

theorem Coherent.regular (hm : m.Coherent) {n : Nat}
    (h : ∀ r ∈ m.activeCandidates, (m.row r).length = n) : m.Regular := fun q r hq hr =>
  (h q (hm.mem_activeCandidates.mpr hq)).trans (h r (hm.mem_activeCandidates.mpr hr)).symm

/-- There is at most one residual cover. -/
def Determined (m : Matrix P) : Prop :=
  ∀ S T, m.ResidualCover S → m.ResidualCover T → S = T

/-- Candidates that together touch no constraint twice share none. -/
theorem eq_of_nodup_touched {rs : List CandidateId} (h : (m.touched rs).Nodup)
    {q r : CandidateId} (hq : q ∈ rs) (hr : r ∈ rs) {c : ConstraintId} (hqc : m.Hits q c)
    (hrc : m.Hits r c) : q = r := by
  by_contra hne
  obtain ⟨-, hapart⟩ := List.nodup_flatMap.mp h
  have hsymm : Std.Symm (Function.onFun List.Disjoint fun r => (m.row r).map m.constraintOf) :=
    ⟨fun _ _ hxy => hxy.symm⟩
  exact hapart.forall hq hr hne (List.mem_map.mpr hqc) (List.mem_map.mpr hrc)

/-- The constraints of different members of a cover are different. -/
theorem ResidualCover.nodup_touched {S : Finset CandidateId} (hS : m.ResidualCover S)
    (hm : m.Coherent) {rs : List CandidateId} (hrs : rs.Nodup) (hmem : ∀ r ∈ rs, r ∈ S) :
    (m.touched rs).Nodup := by
  refine List.nodup_flatMap.mpr ⟨fun r hr => ?_, ?_⟩
  · have ha := hm.mem_activeCandidates.mp (hS.active r (hmem r hr))
    exact (hm.laid.row_ascending r (hm.hasCandidate ha)).imp fun hlt => Nat.ne_of_lt hlt
  · refine hrs.imp_of_mem fun {q r} hq hr hne c hqc hrc => ?_
    exact hS.apart q (hmem q hq) r (hmem r hr) hne c (List.mem_map.mp hqc) (List.mem_map.mp hrc)

/-- Members of a cover can be replaced by candidates that touch the same constraints, each of them
once. -/
theorem ResidualCover.swap {S : Finset CandidateId} (hS : m.ResidualCover S)
    {outs ins : List CandidateId} (houts : ∀ r ∈ outs, r ∈ S)
    (hactive : ∀ r ∈ ins, r ∈ m.activeCandidates)
    (huseful : ∀ r ∈ ins, ∃ c ∈ m.activeConstraints, m.Hits r c)
    (hsame : ∀ c, c ∈ m.touched ins ↔ c ∈ m.touched outs) (honce : (m.touched ins).Nodup) :
    m.ResidualCover ((S \ outs.toFinset) ∪ ins.toFinset) := by
  have hcases : ∀ r ∈ (S \ outs.toFinset) ∪ ins.toFinset, (r ∈ S ∧ r ∉ outs) ∨ r ∈ ins := by
    intro r hr
    simpa using hr
  -- a member that stays meets none of the new ones: it would meet one that goes
  have hstay : ∀ q r c, q ∈ S → q ∉ outs → r ∈ ins → m.Hits q c → ¬ m.Hits r c := by
    intro q r c hq hstays hr hqc hrc
    obtain ⟨o, ho, hoc⟩ := mem_touched.mp ((hsame c).mp (mem_touched.mpr ⟨r, hr, hrc⟩))
    exact hstays (hS.eq_of_hits hq (houts o ho) hqc hoc ▸ ho)
  refine ⟨fun r hr => ?_, fun r hr => ?_, fun q hq r hr hne c hqc hrc => ?_, fun c hc => ?_⟩
  · rcases hcases r hr with ⟨hrS, -⟩ | hin
    · exact hS.active r hrS
    · exact hactive r hin
  · rcases hcases r hr with ⟨hrS, -⟩ | hin
    · exact hS.useful r hrS
    · exact huseful r hin
  · rcases hcases q hq with ⟨hqS, hqout⟩ | hqin
    · rcases hcases r hr with ⟨hrS, -⟩ | hrin
      · exact hS.apart q hqS r hrS hne c hqc hrc
      · exact hstay q r c hqS hqout hrin hqc hrc
    · rcases hcases r hr with ⟨hrS, hrout⟩ | hrin
      · exact hstay r q c hrS hrout hqin hrc hqc
      · exact hne (eq_of_nodup_touched honce hqin hrin hqc hrc)
  · obtain ⟨r, hr, hrc⟩ := hS.all c hc
    by_cases hout : r ∈ outs
    · obtain ⟨i, hi, hic⟩ := mem_touched.mp ((hsame c).mpr (mem_touched.mpr ⟨r, hout, hrc⟩))
      exact ⟨i, by simp [hi], hic⟩
    · exact ⟨r, by simp [hr, hout], hrc⟩

theorem Regular.length_touched (h : m.Regular) {n : Nat} {r : CandidateId}
    (hr : m.isCandidateActive r = true) (hn : (m.row r).length = n) {rs : List CandidateId}
    (hrs : ∀ q ∈ rs, m.isCandidateActive q = true) :
    (m.touched rs).length = rs.length * n := by
  induction rs with
  | nil => simp [touched]
  | cons q rs ih =>
    have hq := (h q r (hrs q List.mem_cons_self) hr).trans hn
    have hrest := ih fun p hp => hrs p (List.mem_cons_of_mem q hp)
    unfold touched at hrest ⊢
    rw [List.flatMap_cons, List.length_append, hrest, List.length_map, hq, List.length_cons,
      Nat.succ_mul, Nat.add_comm]

/-- If two ways touch every constraint an even number of times together, and the first touches none
twice, then the second touches the same ones, as far as its candidates have no more. -/
theorem perm_touched {outs ins : List CandidateId}
    (heven : ∀ c, ((m.touched outs).count c + (m.touched ins).count c) % 2 = 0)
    (honce : (m.touched outs).Nodup)
    (hlength : (m.touched ins).length ≤ (m.touched outs).length) :
    (m.touched outs).Perm (m.touched ins) := by
  refine List.Subperm.perm_of_length_le (List.subperm_of_subset honce fun c hc => ?_) hlength
  have hone := List.count_eq_one_of_mem honce hc
  have heven := heven c
  refine List.count_pos_iff.mp ?_
  omega

end Matrix

namespace Strategy

open ExactCover.Matrix

open Coherent (Shares)

variable {P : Type} {m : Matrix P}

/-- Three corners `a`, `b` and `c` in a row and two further cells `x` and `y`, such that `a.1`,
`b.1`, `c.1` and `x` stand on one side and the others on the other side. -/
structure Facing (m : Matrix P) (u v w : Bivalue) (fourth : ConstraintId) (a b c : CellPair)
    (x y : CellId) : Prop where
  corners : u.Of m ∧ v.Of m ∧ w.Of m
  turned : a ∈ flips u.cells ∧ b ∈ flips v.cells ∧ c ∈ flips w.cells
  disjoint : m.intersects u.constraint v.constraint = false ∧
    m.intersects u.constraint w.constraint = false ∧
    m.intersects v.constraint w.constraint = false
  fourth_active : fourth ∈ m.activeConstraints
  cells : x ∈ m.column fourth ∧ y ∈ m.column fourth
  ne : m.candidateOf x ≠ m.candidateOf y
  outside : ∀ h ∈ [x, y], ∀ g ∈ [a.1, a.2, b.1, b.2, c.1, c.2],
    m.candidateOf h ≠ m.candidateOf g
  first : m.cellsConflict a.1 b.1 = true ∧ m.cellsConflict c.1 x = true ∧
    m.cellsConflict x a.1 = true
  second : m.cellsConflict a.2 b.2 = true ∧ m.cellsConflict c.2 y = true ∧
    m.cellsConflict y a.2 = true
  even : ∀ k, ((m.touched ([x, a.2, c.2, b.1].map m.candidateOf)).count k +
    (m.touched ([y, a.1, c.1, b.2].map m.candidateOf)).count k) % 2 = 0

theorem swap_mem_flips {α : Type} {x y : α × α} (h : x ∈ flips y) : (x.2, x.1) ∈ flips y := by
  rcases List.mem_pair.mp h with rfl | rfl
  · exact List.mem_cons_of_mem _ List.mem_cons_self
  · exact List.mem_cons_self

section Facing

variable {u v w : Bivalue} {fourth : ConstraintId} {a b c : CellPair} {x y : CellId}

/-- Either side may come first. -/
theorem Facing.turn (h : Facing m u v w fourth a b c x y) :
    Facing m u v w fourth (a.2, a.1) (b.2, b.1) (c.2, c.1) y x where
  corners := h.corners
  turned := ⟨swap_mem_flips h.turned.1, swap_mem_flips h.turned.2.1, swap_mem_flips h.turned.2.2⟩
  disjoint := h.disjoint
  fourth_active := h.fourth_active
  cells := h.cells.symm
  ne := h.ne.symm
  outside := by
    have hout := h.outside
    simp only [List.mem_cons, List.not_mem_nil, or_false, forall_eq_or_imp, forall_eq] at hout ⊢
    tauto
  first := h.second
  second := h.first
  even k := by
    have heven := h.even k
    simp only [touched, List.map_cons, List.map_nil, List.flatMap_cons, List.flatMap_nil,
      List.count_append, List.count_nil] at heven ⊢
    omega

/-- All candidates of a rectangle are active and satisfy some active constraint. -/
theorem Facing.active (h : Facing m u v w fourth a b c x y) (hm : m.Coherent) :
    ∀ g ∈ [x, y, a.1, a.2, b.1, b.2, c.1, c.2], m.isCandidateActive (m.candidateOf g) = true ∧
      ∃ k ∈ m.activeConstraints, m.Hits (m.candidateOf g) k := by
  have hactive : ∀ k ∈ m.activeConstraints, ∀ g ∈ m.column k,
      m.isCandidateActive (m.candidateOf g) = true ∧
        ∃ k ∈ m.activeConstraints, m.Hits (m.candidateOf g) k := by
    intro k hk g hg
    obtain ⟨hcon, -, hopen⟩ := hm.mem_activeConstraints.mp hk
    obtain ⟨ha, hhits⟩ := (hm.mem_column_candidates hcon hopen).mp (List.mem_map_of_mem hg)
    exact ⟨ha, k, hk, hhits⟩
  obtain ⟨hu, hv, hw⟩ := h.corners
  have ha := hu.mem_flips h.turned.1
  have hb := hv.mem_flips h.turned.2.1
  have hc := hw.mem_flips h.turned.2.2
  simp only [List.forall_mem_cons, List.not_mem_nil, false_imp_iff, implies_true, and_true]
  exact ⟨hactive _ h.fourth_active _ h.cells.1, hactive _ h.fourth_active _ h.cells.2,
    hactive _ hu.active _ ha.1, hactive _ hu.active _ ha.2, hactive _ hv.active _ hb.1,
    hactive _ hv.active _ hb.2, hactive _ hw.active _ hc.1, hactive _ hw.active _ hc.2⟩

/-- A cover that has `x` has three candidates of the corners with it. -/
theorem Facing.way_mem (h : Facing m u v w fourth a b c x y) (hm : m.Coherent) (hf : m.Fits)
    {S : Finset CandidateId} (hS : m.ResidualCover S) (hx : m.candidateOf x ∈ S) :
    ∀ r ∈ [x, a.2, c.2, b.1].map m.candidateOf, r ∈ S := by
  obtain ⟨hu, hv, hw⟩ := h.corners
  obtain ⟨ha, hb, hc⟩ := h.turned
  have hout := h.outside x List.mem_cons_self
  have hnotA : m.candidateOf a.1 ∉ S := fun haS => hout a.1 (by simp)
    (hS.eq_of_shares hx haS ((hm.cellsConflict_iff hf).mp h.first.2.2))
  have hnotC : m.candidateOf c.1 ∉ S := fun hcS => hout c.1 (by simp)
    (hS.eq_of_shares hcS hx ((hm.cellsConflict_iff hf).mp h.first.2.1)).symm
  have haS := (hu.one_of_flips hm ha hS).resolve_left hnotA
  have hcS := (hw.one_of_flips hm hc hS).resolve_left hnotC
  have hnotB := hm.not_both hf hu.active hv.active h.disjoint.1 (hu.mem_flips ha).2
    (hv.mem_flips hb).2 h.second.1 hS haS
  have hbS := (hv.one_of_flips hm hb hS).resolve_right hnotB
  simp [hx, haS, hcS, hbS]

/-- The four candidates of a way are different. -/
theorem Facing.way_nodup (h : Facing m u v w fourth a b c x y) (hm : m.Coherent) (hf : m.Fits) :
    ([x, a.2, c.2, b.1].map m.candidateOf).Nodup := by
  obtain ⟨hu, hv, hw⟩ := h.corners
  have ha := (hu.mem_flips h.turned.1).2
  have hb := (hv.mem_flips h.turned.2.1).1
  have hc := (hw.mem_flips h.turned.2.2).2
  have hac := hm.ne_of_not_intersects hf hu.active hw.active h.disjoint.2.1 ha hc
  have hab := hm.ne_of_not_intersects hf hu.active hv.active h.disjoint.1 ha hb
  have hbc := hm.ne_of_not_intersects hf hv.active hw.active h.disjoint.2.2 hb hc
  have hout := h.outside x List.mem_cons_self
  simp [hac, hab, Ne.symm hbc, hout a.2, hout b.1, hout c.2]

/-- If all candidates have the same number of constraints, no cover that has `x` is the only one:
what it has of the rectangle can be replaced by the rest of it. -/
theorem Facing.excluded (h : Facing m u v w fourth a b c x y) (hm : m.Coherent) (hf : m.Fits)
    (hr : m.Regular) (hd : m.Determined) : m.Excluded (m.candidateOf x) := by
  intro S hS hx
  have hway := h.way_mem hm hf hS hx
  have hactive := h.active hm
  have honce := hS.nodup_touched hm (h.way_nodup hm hf) hway
  have hlength : ∀ hs : List CellId, (∀ g ∈ hs, g ∈ [x, y, a.1, a.2, b.1, b.2, c.1, c.2]) →
      (m.touched (hs.map m.candidateOf)).length =
        hs.length * (m.row (m.candidateOf x)).length := by
    intro hs hmem
    rw [hr.length_touched (hactive x (by simp)).1 rfl, List.length_map]
    intro q hq
    obtain ⟨g, hg, rfl⟩ := List.mem_map.mp hq
    exact (hactive g (hmem g hg)).1
  -- one way touches nothing twice and the other has as many constraints, so an even count makes
  -- them touch the same
  have hperm := perm_touched h.even honce (Nat.le_of_eq
    ((hlength [y, a.1, c.1, b.2] (by simp)).trans (hlength [x, a.2, c.2, b.1] (by simp)).symm))
  have hother : ∀ r ∈ [y, a.1, c.1, b.2].map m.candidateOf, m.isCandidateActive r = true ∧
      ∃ k ∈ m.activeConstraints, m.Hits r k := by
    intro r hr
    obtain ⟨g, hg, rfl⟩ := List.mem_map.mp hr
    refine hactive g ?_
    simp only [List.mem_cons, List.not_mem_nil, or_false] at hg ⊢
    tauto
  have hswap := hS.swap hway (fun r hr => hm.mem_activeCandidates.mpr (hother r hr).1)
    (fun r hr => (hother r hr).2) (fun c => hperm.symm.mem_iff) (hperm.nodup_iff.mp honce)
  -- the cover that is made has everything of the rectangle that `S` has not, so not `x`
  have hgone : m.candidateOf x ∉
      (S \ ([x, a.2, c.2, b.1].map m.candidateOf).toFinset) ∪
        ([y, a.1, c.1, b.2].map m.candidateOf).toFinset := by
    have hout := h.outside x List.mem_cons_self
    simp [h.ne, hout a.1, hout c.1, hout b.2]
  exact hgone (hd S _ hS hswap ▸ hx)

end Facing

/-! ## A rectangle that is found -/

section Found

variable {cellsOnly : Bool} {d : Deduction}

/-- The sides of a rectangle face each other. -/
theorem TwoWay.facing {u v w fourth : ConstraintId} {a b c extra : CellPair}
    (h : TwoWay m cellsOnly u v w fourth a b c extra) (hm : m.Coherent) (hf : m.Fits) :
    Facing m (bivalueAt m u) (bivalueAt m v) (bivalueAt m w) fourth a b c extra.1 extra.2 where
  corners := ⟨h.first.of, h.middle.of, h.last.of⟩
  turned := ⟨h.first.mem_flips, h.middle.mem_flips, h.last.mem_flips⟩
  disjoint := by
    have hapart := h.apart
    simp only [List.pairwise_cons, List.mem_cons, List.not_mem_nil, or_false, forall_eq_or_imp,
      forall_eq] at hapart
    exact ⟨(hm.intersects_eq_false_iff hf h.first.active h.middle.active).mpr hapart.1.1,
      (hm.intersects_eq_false_iff hf h.first.active h.last.active).mpr hapart.1.2,
      (hm.intersects_eq_false_iff hf h.middle.active h.last.active).mpr hapart.2.1⟩
  fourth_active := h.fourth_active
  cells := h.extra_cells
  ne := h.different
  outside := h.outside
  first := ⟨(hm.cellsConflict_iff hf).mpr h.first_side.first_middle,
    (hm.cellsConflict_iff hf).mpr h.first_side.last_fourth,
    (hm.cellsConflict_iff hf).mpr h.first_side.fourth_first⟩
  second := ⟨(hm.cellsConflict_iff hf).mpr h.second_side.first_middle,
    (hm.cellsConflict_iff hf).mpr h.second_side.last_fourth,
    (hm.cellsConflict_iff hf).mpr h.second_side.fourth_first⟩
  even k := by
    have hactive := active_of_cells hm h.first h.middle h.last h.fourth_active h.extra_cells
    have heven := h.even k
    rw [← hm.count_touched hactive] at heven
    simp only [touched, List.map_cons, List.map_nil, List.flatMap_cons, List.flatMap_nil,
      List.count_append, List.count_nil] at heven ⊢
    omega

/-- What a rectangle rules out is active, and in no cover if one cover at most is left. -/
theorem ShowsRectangle.excluded (hm : m.Coherent) (hf : m.Fits) (hr : m.Regular)
    (hd : m.Determined) {pattern : Pattern} {gone : CandidateId → Prop}
    (h : ShowsRectangle m cellsOnly pattern gone) {r : CandidateId} (hgone : gone r) :
    m.isCandidateActive r = true ∧ m.Excluded r := by
  cases h with
  | rectangle hshown =>
    have hfacing := hshown.facing hm hf
    rcases hgone with rfl | rfl
    · exact ⟨hm.active_of_column hshown.fourth_active hshown.extra_cells.1,
        hfacing.excluded hm hf hr hd⟩
    · exact ⟨hm.active_of_column hshown.fourth_active hshown.extra_cells.2,
        hfacing.turn.excluded hm hf hr hd⟩

/-- Where all candidates have the same number of constraints and one cover at most is left, what a
rectangle eliminates is in no cover. -/
theorem findRectangle_justified (hm : m.Coherent) (hf : m.Fits) (hr : m.Regular)
    (hd : m.Determined) (h : findRectangle m cellsOnly = some d) : m.Justified d.actions := by
  obtain ⟨gone, hshows, ⟨r, hgone⟩, heliminates⟩ := findRectangle_sound hm hf h
  have hout := fun g (hg : g ∈ d.eliminations) =>
    hshows.excluded hm hf hr hd ((heliminates.mem _).mp (List.mem_map_of_mem hg))
  rw [heliminates.only]
  refine .eliminate (fun hnil => ?_)
    ⟨heliminates.once, fun g hg => (hout g hg).1, fun g hg => (hout g hg).2⟩
  have hmem := (heliminates.mem r).mpr hgone
  rw [hnil] at hmem
  cases hmem

/-- What any strategy sees is justified where all candidates have the same number of constraints and
one cover at most is left. -/
theorem find_justified_of_determined (hm : m.Coherent) (hf : m.Fits) (hr : m.Regular)
    (hd : m.Determined) {s : Strategy} (h : s.find m = some d) : m.Justified d.actions := by
  cases s with
  | uniqueRectangle => exact findRectangle_justified hm hf hr hd h
  | hiddenUniqueRectangle => exact findRectangle_justified hm hf hr hd h
  | _ => exact find_justified hm hf rfl h

end Found

end Strategy

/-! ## Unique solutions -/

section Unique

variable {P : Type}

/-- Where all candidates have the same number of constraints, the strategies that assume a unique
solution eliminate nothing of a solution that is unique. -/
theorem Prepared.find_keeps_unique {m : Matrix P} (h : Prepared m) (hf : m.Fits)
    (hr : m.Regular) {S : Finset CandidateId} (hS : m.ResidualCover S)
    (hone : ∀ T, m.ResidualCover T → T = S) {s : Strategy} (hs : s.assumesUnique = true)
    {d : Deduction} (hfind : s.find m = some d) : ∀ x ∈ d.eliminations, m.candidateOf x ∉ S := by
  have hd : m.Determined := fun T U hT hU => (hone T hT).trans (hone U hU).symm
  obtain ⟨cellsOnly, hfound⟩ : ∃ cellsOnly, Strategy.findRectangle m cellsOnly = some d := by
    cases s with
    | uniqueRectangle => exact ⟨true, hfind⟩
    | hiddenUniqueRectangle => exact ⟨false, hfind⟩
    | _ => cases hs
  intro x hx
  rw [Deduction.mem_eliminations] at hx
  generalize hactions : d.actions = actions at hx
  have hjustified := Strategy.findRectangle_justified h.coherent hf hr hd hfound
  rw [hactions] at hjustified
  cases hjustified with
  | solve => cases List.mem_singleton.mp hx
  | eliminate _ hexcluded =>
    obtain ⟨y, hy, heq⟩ := List.mem_map.mp hx
    cases heq
    exact hexcluded.excluded x hy S hS

/-- The covers of a matrix are those that the search finds. -/
theorem residualCover_iff_found {m : Matrix P} (hm : m.Coherent)
    {covers : List (List CandidateId)}
    (h : (Search.leaves m.activeConstraintCount m).map (fun hs => hs.map m.candidateOf) = covers)
    (S : Finset CandidateId) : m.ResidualCover S ↔ S ∈ covers.map List.toFinset := by
  rw [← Search.mem_leaves hm (Nat.le_refl _), ← h, List.map_map]
  rfl

end Unique

/-- A rectangle of four cells. The fourth cell has a third candidate, `d3`, which goes with one way
to fill the rectangle, and the fifth cell, which has one candidate only, excludes `c1` and `d1`
and so both ways to fill the rectangle without `d3`. -/
def sampleRound : Matrix Unit :=
  (Matrix.empty.constrainedAll
    [⟨"a", .cell, true⟩, ⟨"b", .cell, true⟩, ⟨"c", .cell, true⟩, ⟨"d", .cell, true⟩,
      ⟨"e", .cell, true⟩, ⟨"ab1", .other, false⟩, ⟨"ab2", .other, false⟩, ⟨"bc1", .other, false⟩,
      ⟨"bc2", .other, false⟩, ⟨"cd1", .other, false⟩, ⟨"cd2", .other, false⟩,
      ⟨"da1", .other, false⟩, ⟨"da2", .other, false⟩, ⟨"f", .other, false⟩,
      ⟨"g", .other, false⟩]).peopledAll
    [⟨"a1", (), [1, 6, 12]⟩, ⟨"a2", (), [1, 7, 13]⟩, ⟨"b1", (), [2, 6, 8]⟩, ⟨"b2", (), [2, 7, 9]⟩,
      ⟨"c1", (), [3, 8, 10]⟩, ⟨"c2", (), [3, 9, 11]⟩, ⟨"d1", (), [4, 10, 12]⟩,
      ⟨"d2", (), [4, 11, 13]⟩, ⟨"d3", (), [4, 12, 14]⟩, ⟨"e", (), [5, 10, 15]⟩]

theorem built_sampleRound : sampleRound.Built :=
  (Matrix.Built.empty.constrainedAll (by decide +kernel) (by decide +kernel)).peopledAll
    (by decide +kernel) (by decide +kernel) (by decide +kernel)

theorem Prepared.find_keeps_unique_sampleRound :
    ∃ d, Strategy.uniqueRectangle.find sampleRound = some d ∧ d.eliminations = [34, 37] ∧
      ∀ x ∈ d.eliminations, sampleRound.candidateOf x ∉ [10, 6, 3, 2, 9].toFinset := by
  have hm := built_sampleRound.fresh.coherent
  have hleaves : (Search.leaves sampleRound.activeConstraintCount sampleRound).map
      (fun hs => hs.map sampleRound.candidateOf) = [[10, 6, 3, 2, 9]] := by decide +kernel
  have hcover := residualCover_iff_found hm hleaves
  have hfound : (Strategy.uniqueRectangle.find sampleRound).map Deduction.eliminations =
      some [34, 37] := by decide +kernel
  obtain ⟨d, hd, heliminations⟩ := Option.map_eq_some_iff.mp hfound
  have hregular : sampleRound.Regular := hm.regular (n := 3) (by decide +kernel)
  refine ⟨d, hd, heliminations, Prepared.find_keeps_unique (.built built_sampleRound)
    ⟨by decide, by decide⟩ hregular ((hcover _).mpr (by simp)) (fun T hT => ?_) rfl hd⟩
  simpa using (hcover T).mp hT

/-! ## A rectangle that misleads

Two cells `a` and `b`, a third cell `c` and a fourth constraint `f` whose candidates `x` and `y`
close the rectangle. Every constraint is touched an even number of times, but `b1` and `c0` are
both in `k`, and `b1` and `y` both in `n`: the second way to fill the rectangle is none, so the
first way can be the only solution. -/

def sampleRectangle : Matrix Unit :=
  (Matrix.empty.constrainedAll
    [⟨"a", .cell, true⟩, ⟨"b", .cell, true⟩, ⟨"c", .cell, true⟩, ⟨"f", .cell, true⟩,
      ⟨"k", .other, false⟩, ⟨"m", .other, false⟩, ⟨"n", .other, false⟩]).peopledAll
    [⟨"a0", (), [1, 4, 5, 7]⟩, ⟨"a1", (), [1, 6]⟩, ⟨"b0", (), [2, 5]⟩, ⟨"b1", (), [2, 5, 6, 7]⟩,
      ⟨"c0", (), [3, 4, 5, 6]⟩, ⟨"c1", (), [3, 7]⟩, ⟨"x", (), [4]⟩, ⟨"y", (), [4, 6, 7]⟩]

theorem built_sampleRectangle : sampleRectangle.Built :=
  (Matrix.Built.empty.constrainedAll (by decide +kernel) (by decide +kernel)).peopledAll
    (by decide +kernel) (by decide +kernel) (by decide +kernel)

/-- Without that condition both strategies can eliminate a candidate of the only solution. -/
theorem sampleRectangle_loses_unique :
    sampleRectangle.Built ∧ sampleRectangle.Fits ∧
      (∀ S, sampleRectangle.ResidualCover S ↔ S = {2, 3, 6, 7}) ∧
      ∀ s ∈ [Strategy.uniqueRectangle, .hiddenUniqueRectangle],
        ∃ d, s.find sampleRectangle = some d ∧
          ∃ x ∈ d.eliminations, sampleRectangle.candidateOf x ∈ ({2, 3, 6, 7} : Finset Nat) := by
  have hm := built_sampleRectangle.fresh.coherent
  have hleaves : (Search.leaves sampleRectangle.activeConstraintCount sampleRectangle).map
      (fun hs => hs.map sampleRectangle.candidateOf) = [[2, 3, 6, 7]] := by decide +kernel
  have hcover := residualCover_iff_found hm hleaves
  have hfound : ∀ s ∈ [Strategy.uniqueRectangle, .hiddenUniqueRectangle],
      (s.find sampleRectangle).map Deduction.eliminations = some [26, 27] := by decide +kernel
  refine ⟨built_sampleRectangle, ⟨by decide, by decide⟩, fun S => ?_, fun s hs => ?_⟩
  · rw [hcover S, List.map_singleton, List.mem_singleton]
    rfl
  · obtain ⟨d, hd, heliminations⟩ := Option.map_eq_some_iff.mp (hfound s hs)
    refine ⟨d, hd, 26, by simp [heliminations], ?_⟩
    have hcandidate : sampleRectangle.candidateOf 26 = 7 := by decide +kernel
    rw [hcandidate]
    decide

end ExactCover
