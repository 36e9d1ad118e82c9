/-
ExactCover.Proofs.Patterns.Wings — the search for a hinge with two wings is exact.

`IsWing` names the roles of three constraints and says which way the cells of each are
turned. The search never turns the hinge. It does not have to: with the hinge turned
the two wings change places (`IsWing.swap`), and they are tried in either place. So
among the six roles of three constraints, in the order in which they are met, there is
one that fits (`findWing_complete`).
-/
import ExactCover.Proofs.Names
import ExactCover.Proofs.Patterns.Basic

namespace ExactCover

namespace Strategy

open ExactCover.Matrix

open Coherent (Shares)

variable {P : Type} {m : Matrix P} {cellsOnly : Bool}

/-- A hinge `u` with cells `x` and two wings `v` and `w` with cells `a` and `b`: the first cell of
the hinge excludes the first of one wing, its second cell the first of the other. The pincers are
the other cells of the wings. -/
structure IsWing (m : Matrix P) (cellsOnly : Bool) (u v w : ConstraintId) (x a b : CellPair) :
    Prop where
  hinge : Bivalued m cellsOnly u x
  first : Bivalued m cellsOnly v a
  second : Bivalued m cellsOnly w b
  apart : [u, v, w].Pairwise m.Apart
  excludes_first : Shares m (m.candidateOf x.1) (m.candidateOf a.1)
  excludes_second : Shares m (m.candidateOf x.2) (m.candidateOf b.1)

/-- A wing rules out what conflicts with both pincers. -/
inductive ShowsWing (m : Matrix P) (cellsOnly : Bool) : Pattern → (CandidateId → Prop) → Prop
  | wing {hinge v w : ConstraintId} {x a b : CellPair} : IsWing m cellsOnly hinge v w x a b →
      ShowsWing m cellsOnly (.wing hinge (v, w) (a.2, b.2))
        (m.CommonConflict [m.candidateOf a.2, m.candidateOf b.2])

/-- With the hinge turned the wings change places. -/
theorem IsWing.swap {hinge v w : ConstraintId} {x a b : CellPair}
    (h : IsWing m cellsOnly hinge v w x a b) : IsWing m cellsOnly hinge w v (x.2, x.1) b a where
  hinge := h.hinge.turn
  first := h.second
  second := h.first
  apart := pairwise_apart_of_perm h.apart (.cons _ (.swap ..))
  excludes_first := h.excludes_second
  excludes_second := h.excludes_first

/-! ## What is found is a wing -/

/-- What is found for three constraints is a wing, whoever plays which role. -/
theorem checkWing_sound (hm : m.Coherent) (hf : m.Fits) {c₁ c₂ c₃ : ConstraintId}
    (hmem : ∀ c ∈ [c₁, c₂, c₃], c ∈ bivalueConstraints m cellsOnly)
    (hapart : [c₁, c₂, c₃].Pairwise m.Apart) {d : Deduction}
    (h : checkWing m cellsOnly c₁ c₂ c₃ = some d) :
    ∃ gone, ShowsWing m cellsOnly d.pattern gone ∧ (∃ r, gone r) ∧ d.Eliminates m gone := by
  obtain ⟨p₁, p₂, p₃, hp₁, hp₂, hp₃, hinge, v, w, a, b, hperm, ha, hb, hclash, hclash', hd⟩ :=
    checkWing_some h
  have htwo : ∀ u ∈ [hinge, v, w], ∀ x ∈ flips u.cells, Bivalued m cellsOnly u.constraint x := by
    intro u hu x hx
    have hu := hperm.subset hu
    simp only [List.mem_cons, List.not_mem_nil, or_false] at hu
    rcases hu with rfl | rfl | rfl
    · exact bivalued_of_mem (hmem c₁ (by simp)) hp₁ hx
    · exact bivalued_of_mem (hmem c₂ (by simp)) hp₂ hx
    · exact bivalued_of_mem (hmem c₃ (by simp)) hp₃ hx
  have hwing : IsWing m cellsOnly hinge.constraint v.constraint w.constraint hinge.cells a b :=
    { hinge := htwo hinge (by simp) _ List.mem_cons_self, first := htwo v (by simp) a ha
      second := htwo w (by simp) b hb
      apart := pairwise_apart_of_perm hapart (hperm.map Bivalue.constraint)
      excludes_first := (hm.cellsConflict_iff hf).mp hclash
      excludes_second := (hm.cellsConflict_iff hf).mp hclash' }
  obtain ⟨hne, hpattern, hactions⟩ := checkPincers_some hd
  have hgone := hm.mem_map_commonConflicts hf [m.candidateOf a.2, m.candidateOf b.2]
  obtain ⟨k, hk⟩ := List.exists_mem_of_ne_nil _ hne
  exact ⟨_, hpattern ▸ .wing hwing,
    ⟨_, (hgone _).mp (List.mem_map_of_mem (mem_of_mem_distinct hk))⟩,
    Deduction.eliminates_distinct hactions hgone⟩

theorem findWing_sound (hm : m.Coherent) (hf : m.Fits) {d : Deduction}
    (h : findWing m cellsOnly = some d) :
    ∃ gone, ShowsWing m cellsOnly d.pattern gone ∧ (∃ r, gone r) ∧ d.Eliminates m gone := by
  obtain ⟨a, b, c, hsub, hab, hac, hbc, hd⟩ := firstTriple_some h
  simp only [Bool.not_eq_true'] at hab hac hbc
  refine checkWing_sound hm hf (fun x hx => hsub.subset hx) ?_ hd
  refine hm.pairwise_apart hf (fun x hx => ?_) hab hac hbc
  exact mem_activeConstraintsOfLen (List.mem_filter.mp (hsub.subset hx)).1

/-! ## No wing is passed over -/

theorem checkPincers_ne_none (hm : m.Coherent) (hf : m.Fits) {hinge v w : Bivalue} {a b : CellPair}
    {r : CandidateId} (hr : m.CommonConflict [m.candidateOf a.2, m.candidateOf b.2] r) :
    checkPincers m cellsOnly hinge v w a b ≠ none := by
  have hmem := mem_map_distinct.mpr ((hm.mem_map_commonConflicts hf _ r).mpr hr)
  unfold checkPincers
  split
  · next hnil =>
    rw [hnil] at hmem
    cases hmem
  · exact Option.some_ne_none _

theorem checkRoles_ne_none (hm : m.Coherent) (hf : m.Fits) {hinge v w : Bivalue} {a b : CellPair}
    {r : CandidateId} (ha : a ∈ flips v.cells) (hb : b ∈ flips w.cells)
    (hclash : Shares m (m.candidateOf hinge.cells.1) (m.candidateOf a.1))
    (hclash' : Shares m (m.candidateOf hinge.cells.2) (m.candidateOf b.1))
    (hr : m.CommonConflict [m.candidateOf a.2, m.candidateOf b.2] r) :
    checkRoles m cellsOnly hinge v w ≠ none := by
  refine findSome?_ne_none ha ?_
  rw [if_pos ((hm.cellsConflict_iff hf).mpr hclash)]
  refine findSome?_ne_none hb ?_
  rw [if_pos ((hm.cellsConflict_iff hf).mpr hclash')]
  exact checkPincers_ne_none hm hf hr

/-- A wing whose hinge stands as it does in its column is found in whatever order its constraints
are met. -/
theorem checkWing_ne_none (hm : m.Coherent) (hf : m.Fits) {hinge v w : ConstraintId}
    {x a b : CellPair} (h : IsWing m cellsOnly hinge v w x a b)
    (hx : (bivalueAt m hinge).cells = x) {r : CandidateId}
    (hr : m.CommonConflict [m.candidateOf a.2, m.candidateOf b.2] r) {c₁ c₂ c₃ : ConstraintId}
    (hperm : [c₁, c₂, c₃].Perm [hinge, v, w]) : checkWing m cellsOnly c₁ c₂ c₃ ≠ none := by
  have hcells : ∀ c ∈ [hinge, v, w], m.twoCells? c = some (bivalueAt m c).cells := by
    simp only [List.forall_mem_cons, List.not_mem_nil, false_imp_iff, implies_true, and_true]
    exact ⟨h.hinge.twoCells?, h.first.twoCells?, h.second.twoCells?⟩
  have hcells := fun c hc => hcells c (hperm.subset hc)
  have hroles := mem_wingRoles.mpr (hperm.symm.map (bivalueAt m))
  unfold checkWing
  simp only [hcells c₁ (by simp), hcells c₂ (by simp), hcells c₃ (by simp)]
  refine findSome?_ne_none hroles ?_
  refine checkRoles_ne_none hm hf h.first.mem_flips h.second.mem_flips ?_ ?_ hr
  · exact hx ▸ h.excludes_first
  · exact hx ▸ h.excludes_second

theorem findWing_complete (hm : m.Coherent) (hf : m.Fits) {hinge v w : ConstraintId}
    {x a b : CellPair} (h : IsWing m cellsOnly hinge v w x a b) {r : CandidateId}
    (hr : m.CommonConflict [m.candidateOf a.2, m.candidateOf b.2] r) :
    findWing m cellsOnly ≠ none := by
  refine firstTriple_ne_none_of_bivalued hm hf h.hinge h.first h.second h.apart ?_
  intro c₁ c₂ c₃ hperm
  rcases List.mem_pair.mp h.hinge.mem_flips with hx | hx
  · exact checkWing_ne_none hm hf h hx.symm hr hperm
  · -- the hinge is the other way round in its column, so the wings change places
    have hturned : (bivalueAt m hinge).cells = (x.2, x.1) := by rw [hx]
    refine checkWing_ne_none hm hf h.swap hturned (hr.congr ?_) (hperm.trans (.cons _ (.swap ..)))
    simp [or_comm]

end Strategy

/-- A hinge with three candidates and two wings. The first candidate of the hinge meets the later
wing. When the third, `h`, is eliminated, one of the pincers `az` and `bz` holds, so `oz` is out. -/
def sampleCrossed : Matrix Unit :=
  (Matrix.empty.constrainedAll
    [⟨"hinge", .cell, true⟩, ⟨"wing1", .cell, true⟩, ⟨"wing2", .cell, true⟩, ⟨"other", .cell, true⟩,
      ⟨"x", .other, false⟩, ⟨"y", .other, false⟩, ⟨"z1", .other, false⟩,
      ⟨"z2", .other, false⟩]).peopledAll
    [⟨"hx", (), [1, 5]⟩, ⟨"hy", (), [1, 6]⟩, ⟨"h", (), [1]⟩, ⟨"ay", (), [2, 6]⟩, ⟨"az", (), [2, 7]⟩,
      ⟨"bx", (), [3, 5]⟩, ⟨"bz", (), [3, 8]⟩, ⟨"oz", (), [4, 7, 8]⟩, ⟨"o", (), [4]⟩]

theorem built_sampleCrossed : sampleCrossed.Built :=
  (Matrix.Built.empty.constrainedAll (by decide +kernel) (by decide +kernel)).peopledAll
    (by decide +kernel) (by decide +kernel) (by decide +kernel)

section Exact

variable {P : Type}

/-- In every state that is reached, the search for wings finds nothing only if there is no hinge
with two wings, in whatever roles and turned in whatever way, whose pincers have an active candidate
in conflict with both of them, and it reports such a hinge with its wings and pincers together with
all these candidates. -/
theorem Reached.findWing_exact {es : List Entry} {m : Matrix P} (h : Reached es m) (hf : m.Fits)
    (cellsOnly : Bool) :
    Finds m (Strategy.findWing m cellsOnly) (Strategy.ShowsWing m cellsOnly) := by
  refine .intro (fun d hd => Strategy.findWing_sound h.coherent hf hd) ?_
  intro pattern gone r hshows hr
  cases hshows with
  | wing hwing => exact Strategy.findWing_complete h.coherent hf hwing hr

theorem Reached.findWing_exact_sampleCrossed :
    ∃ (m : Matrix Unit) (d : Deduction), Reached [.move (.eliminate 13)] m ∧
      Strategy.findWing m true = some d ∧
      d.pattern = .wing 1 (3, 2) (20, 16) ∧ d.eliminations.map m.candidateOf = [8] ∧
      (∃ gone, Strategy.ShowsWing m true d.pattern gone ∧ d.Eliminates m gone) ∧
      Strategy.findWing sampleCrossed true = none ∧
      ¬ ∃ pattern gone, Strategy.ShowsWing sampleCrossed true pattern gone ∧ ∃ r, gone r := by
  have hbuilt : Reached [] sampleCrossed := .built built_sampleCrossed
  have hfits : sampleCrossed.Fits := ⟨by decide, by decide⟩
  have hreached : Reached [.move (.eliminate 13)] (sampleCrossed.eliminateRow 13).matrix :=
    hbuilt.move (a := .eliminate 13)
      (by decide +kernel : sampleCrossed.isCandidateActive (sampleCrossed.candidateOf 13) = true)
  have hboard := (Matrix.relinked_eliminateRow sampleCrossed 13).board
  have hnone : Strategy.findWing sampleCrossed true = none := by decide +kernel
  have hfound : (Strategy.findWing (sampleCrossed.eliminateRow 13).matrix true).map
      (fun d => (d.pattern, d.eliminations.map sampleCrossed.candidateOf)) =
      some (.wing 1 (3, 2) (20, 16), [8]) := by decide +kernel
  obtain ⟨d, hd, heq⟩ := Option.map_eq_some_iff.mp hfound
  obtain ⟨hpattern, heliminations⟩ := Prod.mk.inj heq
  rw [← Matrix.candidateOf_of_board hboard] at heliminations
  obtain ⟨gone, hshows, -, heliminates⟩ :=
    (Reached.findWing_exact hreached (hfits.of_board hboard) true).reports d hd
  exact ⟨_, d, hreached, hd, hpattern, heliminations, ⟨gone, hshows, heliminates⟩, hnone,
    (Reached.findWing_exact hbuilt hfits true).none_iff.mp hnone⟩

end Exact

end ExactCover
