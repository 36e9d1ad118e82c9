/-
ExactCover.Proofs.Patterns.Triples — the search for naked triples is exact.

`IsTriple` sets out the cells of three constraints in three lines, each constraint in a
way of its own: a cell stands in one line only, and where a constraint has two cells a
line goes without one. The search keeps the first constraint in its order. Nothing is
lost by that, because lines can be renamed (`IsTriple.relabel`): the ways to set out a
constraint are the permutations of three lines (`SetOut.exists_perm`), so all
constraints can be set out along with the first.
-/
import Mathlib.Data.Fintype.Perm
import Mathlib.Logic.Equiv.Fintype
import ExactCover.Proofs.Names
import ExactCover.Proofs.Patterns.Basic

namespace ExactCover

namespace Strategy

open ExactCover.Matrix

open Coherent (Shares)

variable {P : Type} {m : Matrix P}

/-- The cells of a constraint are set out in three lines, each of them in one line. -/
structure SetOut (m : Matrix P) (c : ConstraintId) (place : Fin 3 → Option CellId) : Prop where
  mem : ∀ h, h ∈ m.column c ↔ ∃ i, place i = some h
  once : ∀ i j h, place i = some h → place j = some h → i = j

/-- A line through some constraints, of which each gives the cell that it has there. -/
def lineAt (cs : List ConstraintId) (place : ConstraintId → Fin 3 → Option CellId) (i : Fin 3) :
    Line := cs.map fun c => place c i

/-- Two or more candidates that have a constraint in common, all of them. If there are two, that is
to say that they conflict. -/
structure Locked (m : Matrix P) (members : List CandidateId) : Prop where
  two_le : 2 ≤ members.length
  common : ∃ k, ∀ r ∈ members, m.Hits r k

/-- Three constraints with two or three candidates each, set out in three locked lines. -/
structure IsTriple (m : Matrix P) (cs : List ConstraintId)
    (place : ConstraintId → Fin 3 → Option CellId) : Prop where
  three : cs.length = 3
  active : ∀ c ∈ cs, c ∈ m.activeConstraints
  small : ∀ c ∈ cs, (m.candidatesIn c).card = 2 ∨ (m.candidatesIn c).card = 3
  apart : cs.Pairwise m.Apart
  setOut : ∀ c ∈ cs, SetOut m c (place c)
  locked : ∀ i, Locked m (lineMembers m (lineAt cs place i))

/-- A triple rules out what conflicts with the whole of a line. -/
inductive ShowsTriple (m : Matrix P) : Pattern → (CandidateId → Prop) → Prop
  | triple {cs : List ConstraintId} {place : ConstraintId → Fin 3 → Option CellId} :
      IsTriple m cs place →
      ShowsTriple m (.triple cs (List.ofFn (lineAt cs place))) fun r =>
        ∃ i, m.CommonConflict (lineMembers m (lineAt cs place i)) r

/-! ## Lines in another order -/

/-- Lines can be renamed. -/
theorem IsTriple.relabel {cs : List ConstraintId} {place : ConstraintId → Fin 3 → Option CellId}
    (h : IsTriple m cs place) (σ : Equiv.Perm (Fin 3)) :
    IsTriple m cs fun c i => place c (σ i) where
  three := h.three
  active := h.active
  small := h.small
  apart := h.apart
  setOut c hc :=
    { mem := fun g => by
        rw [(h.setOut c hc).mem g]
        exact (σ.surjective.exists (p := fun i => place c i = some g))
      once := fun i j g hi hj => σ.injective ((h.setOut c hc).once _ _ g hi hj) }
  locked i := h.locked (σ i)

theorem perm_lineMembers {cs ds : List ConstraintId} (hperm : ds.Perm cs)
    (place : ConstraintId → Fin 3 → Option CellId) (i : Fin 3) :
    (lineMembers m (lineAt ds place i)).Perm (lineMembers m (lineAt cs place i)) :=
  (hperm.map fun c => place c i).filterMap _

/-- Constraints can be taken in any order. -/
theorem IsTriple.of_perm {cs ds : List ConstraintId}
    {place : ConstraintId → Fin 3 → Option CellId} (h : IsTriple m cs place)
    (hperm : ds.Perm cs) : IsTriple m ds place where
  three := hperm.length_eq.trans h.three
  active c hc := h.active c (hperm.subset hc)
  small c hc := h.small c (hperm.subset hc)
  apart := pairwise_apart_of_perm h.apart hperm
  setOut c hc := h.setOut c (hperm.subset hc)
  locked i := by
    have hmembers := perm_lineMembers (m := m) hperm place i
    obtain ⟨htwo, k, hk⟩ := h.locked i
    exact ⟨hmembers.length_eq ▸ htwo, k, fun r hr => hk r (hmembers.subset hr)⟩

/-! ## The ways to set out a constraint -/

/-- The order in which a permutation takes the cells of a constraint. -/
def orderOf (σ : Equiv.Perm (Fin 3)) : Nat × Nat × Nat := (σ 0, σ 1, σ 2)

/-- The orders of the search are those of all permutations. -/
theorem mem_lineOrders_iff {p : Nat × Nat × Nat} : p ∈ lineOrders ↔ ∃ σ, orderOf σ = p := by
  have hall : ∀ σ, orderOf σ ∈ lineOrders := by decide
  have hsome : ∀ p ∈ lineOrders, ∃ σ, orderOf σ = p := by decide
  constructor
  · exact hsome p
  · rintro ⟨σ, rfl⟩
    exact hall σ

/-- The places of cells in lines, if each constraint takes its cells in the order of a
permutation. -/
def placed (m : Matrix P) (turn : ConstraintId → Equiv.Perm (Fin 3)) (c : ConstraintId)
    (i : Fin 3) : Option CellId := (m.column c)[(turn c i : Nat)]?

/-- The first of three constraints keeps its order, the others take their cells in some order. -/
def turnOthers (first second : ConstraintId) (σ τ : Equiv.Perm (Fin 3)) (c : ConstraintId) :
    Equiv.Perm (Fin 3) :=
  if c = first then Equiv.refl _ else if c = second then σ else τ

/-- To take up to three cells in some order is a way to set them out. -/
theorem setOut_placed {turn : ConstraintId → Equiv.Perm (Fin 3)} {c : ConstraintId}
    (hnodup : (m.column c).Nodup) (hlength : (m.column c).length ≤ 3) :
    SetOut m c (placed m turn c) where
  mem h := by
    constructor
    · intro hh
      obtain ⟨j, hj, rfl⟩ := List.mem_iff_getElem.mp hh
      refine ⟨(turn c).symm ⟨j, by omega⟩, ?_⟩
      rw [placed, Equiv.apply_symm_apply, List.getElem?_eq_getElem hj]
    · rintro ⟨i, hi⟩
      exact List.mem_of_getElem? hi
  once i j h hi hj := by
    obtain ⟨hlt, -⟩ := List.getElem?_eq_some_iff.mp hi
    exact (turn c).injective (Fin.ext ((List.getElem?_inj hlt hnodup).mp (hi.trans hj.symm)))

/-- There are no other ways. -/
theorem SetOut.exists_perm {c : ConstraintId} {place : Fin 3 → Option CellId}
    (h : SetOut m c place) (hnodup : (m.column c).Nodup) (hlength : (m.column c).length ≤ 3) :
    ∃ σ : Equiv.Perm (Fin 3), ∀ i, place i = (m.column c)[(σ i : Nat)]? := by
  have hstands : ∀ j : Fin (m.column c).length, ∃ i, place i = some (m.column c)[j] := fun j =>
    (h.mem _).mp (List.getElem_mem _)
  choose line hline using hstands
  have hinjective : Function.Injective line := by
    intro j k hjk
    have hsame := (hline j).symm.trans (hjk ▸ hline k)
    exact Fin.ext ((List.Nodup.getElem_inj_iff hnodup).mp (Option.some.inj hsame))
  obtain ⟨σ, hσ⟩ := Equiv.Perm.exists_extending_pair (Fin.castLE hlength) line
    (Fin.castLE_injective hlength) hinjective
  -- `σ` takes the places in the column to lines; lines that are left over have no cell
  have hplace : ∀ j, place (σ j) = (m.column c)[(j : Nat)]? := by
    intro j
    by_cases hj : (j : Nat) < (m.column c).length
    · rw [List.getElem?_eq_getElem hj]
      exact hσ ⟨j, hj⟩ ▸ hline ⟨j, hj⟩
    · rw [List.getElem?_eq_none (Nat.not_lt.mp hj), Option.eq_none_iff_forall_ne_some]
      intro g hg
      obtain ⟨k, hk, rfl⟩ := List.mem_iff_getElem.mp ((h.mem g).mpr ⟨σ j, hg⟩)
      have hsame := h.once _ _ _ hg (hline ⟨k, hk⟩)
      rw [← hσ ⟨k, hk⟩] at hsame
      have hjk := congrArg Fin.val (σ.injective hsame)
      exact hj (hjk ▸ hk)
  refine ⟨σ.symm, fun i => ?_⟩
  rw [← hplace, Equiv.apply_symm_apply]

/-- The lines of the search, if its first constraint keeps its order. -/
theorem linesOf_eq {a b c : ConstraintId} (place : ConstraintId → Fin 3 → Option CellId)
    {σ τ : Equiv.Perm (Fin 3)} (ha : ∀ i, place a i = (m.column a)[(i : Nat)]?)
    (hb : ∀ i, place b i = (m.column b)[(σ i : Nat)]?)
    (hc : ∀ i, place c i = (m.column c)[(τ i : Nat)]?) :
    linesOf (m.column a) (m.column b) (m.column c) (orderOf σ) (orderOf τ) =
      List.ofFn (lineAt [a, b, c] place) := by
  simp [linesOf, lineAt, orderOf, List.ofFn_succ, ha, hb, hc]

/-! ## Lines that are locked and what they rule out -/

theorem length_lineMembers_le (m : Matrix P) (line : Line) :
    (lineMembers m line).length ≤ line.length := List.length_filterMap_le _ _

theorem isLocked_iff (hm : m.Coherent) (hf : m.Fits) {line : Line} (hlength : line.length ≤ 3) :
    isLocked m line = true ↔ Locked m (lineMembers m line) := by
  have hthree := (length_lineMembers_le m line).trans hlength
  unfold isLocked
  split
  · next a b hmembers =>
    rw [hm.conflicts_iff hf, hmembers]
    constructor
    · intro h'
      obtain ⟨k, ha, hb⟩ := h'
      exact ⟨Nat.le_refl 2, k, by simp [ha, hb]⟩
    · intro h'
      obtain ⟨k, hk⟩ := h'.common
      exact ⟨k, hk a (by simp), hk b (by simp)⟩
  · next a b c hmembers =>
    rw [hm.commonConstraint_isSome_iff hf, hmembers]
    constructor
    · intro h'
      obtain ⟨k, ha, hall⟩ := h'
      exact ⟨by simp, k, List.forall_mem_cons.mpr ⟨ha, hall⟩⟩
    · intro h'
      obtain ⟨k, hk⟩ := h'.common
      exact ⟨k, List.forall_mem_cons.mp hk⟩
  · next htwo hthree' =>
    refine iff_of_false Bool.false_ne_true fun h' => ?_
    have hshape : (lineMembers m line).length = 2 ∨ (lineMembers m line).length = 3 := by
      have := h'.two_le
      omega
    rcases hshape with hshape | hshape
    · obtain ⟨a, b, heq⟩ := List.length_eq_two.mp hshape
      exact htwo a b heq
    · obtain ⟨a, b, c, heq⟩ := List.length_eq_three.mp hshape
      exact hthree' a b c heq

theorem isLocked_lineAt (hm : m.Coherent) (hf : m.Fits) {a b c : ConstraintId}
    (place : ConstraintId → Fin 3 → Option CellId) (i : Fin 3) :
    isLocked m (lineAt [a, b, c] place i) = true ↔
      Locked m (lineMembers m (lineAt [a, b, c] place i)) :=
  isLocked_iff hm hf (Nat.le_refl 3)

theorem mem_map_lineConflicts (hm : m.Coherent) (hf : m.Fits) (lines : List Line)
    (r : CandidateId) :
    r ∈ (lines.flatMap fun line => m.commonConflicts (lineMembers m line)).map m.candidateOf ↔
      ∃ line ∈ lines, m.CommonConflict (lineMembers m line) r := by
  simp only [List.map_flatMap, List.mem_flatMap, hm.mem_map_commonConflicts hf]

theorem checkLines_eliminates (hm : m.Coherent) (hf : m.Fits) {cs : List ConstraintId}
    {lines : List Line} {d : Deduction} (h : checkLines m cs lines = some d) :
    (∃ r, ∃ line ∈ lines, m.CommonConflict (lineMembers m line) r) ∧
      d.Eliminates m fun r => ∃ line ∈ lines, m.CommonConflict (lineMembers m line) r := by
  have hgone := mem_map_lineConflicts hm hf lines
  obtain ⟨-, hne, -, hactions⟩ := checkLines_some h
  obtain ⟨k, hk⟩ := List.exists_mem_of_ne_nil _ hne
  exact ⟨⟨_, (hgone _).mp (List.mem_map_of_mem (mem_of_mem_distinct hk))⟩,
    Deduction.eliminates_distinct hactions hgone⟩

theorem checkLines_ne_none (hm : m.Coherent) (hf : m.Fits) {cs : List ConstraintId}
    {lines : List Line} (hlocked : ∀ line ∈ lines, isLocked m line = true) {line : Line}
    (hline : line ∈ lines) {r : CandidateId} (hr : m.CommonConflict (lineMembers m line) r) :
    checkLines m cs lines ≠ none := by
  have hmem := mem_map_distinct.mpr ((mem_map_lineConflicts hm hf lines r).mpr ⟨line, hline, hr⟩)
  unfold checkLines
  rw [if_pos (List.all_eq_true.mpr hlocked)]
  split
  · next hnil =>
    rw [hnil] at hmem
    cases hmem
  · exact Option.some_ne_none _

/-! ## What is found is a triple -/

/-- What the search takes for a constraint of a triple has two or three candidates. -/
theorem mem_small_iff (hm : m.Coherent) {c : ConstraintId} :
    c ∈ (m.activeConstraints.filter fun c => m.len c == 2 || m.len c == 3) ↔
      c ∈ m.activeConstraints ∧
        ((m.candidatesIn c).card = 2 ∨ (m.candidatesIn c).card = 3) := by
  rw [List.mem_filter]
  refine and_congr_right fun hc => ?_
  rw [hm.card_candidatesIn (hm.mem_activeConstraints.mp hc).1, Bool.or_eq_true, beq_iff_eq,
    beq_iff_eq]

/-- Three different constraints, each set out as a permutation says. -/
theorem checkTriple_sound (hm : m.Coherent) (hf : m.Fits) {a b c : ConstraintId}
    (hactive : ∀ x ∈ [a, b, c], x ∈ m.activeConstraints)
    (hsmall : ∀ x ∈ [a, b, c], (m.candidatesIn x).card = 2 ∨ (m.candidatesIn x).card = 3)
    (hapart : [a, b, c].Pairwise m.Apart) {d : Deduction} (h : checkTriple m a b c = some d) :
    ∃ gone, ShowsTriple m d.pattern gone ∧ (∃ r, gone r) ∧ d.Eliminates m gone := by
  obtain ⟨p, hp, h⟩ := List.exists_of_findSome?_eq_some h
  obtain ⟨q, hq, h⟩ := List.exists_of_findSome?_eq_some h
  obtain ⟨σ, rfl⟩ := mem_lineOrders_iff.mp hp
  obtain ⟨τ, rfl⟩ := mem_lineOrders_iff.mp hq
  have hnodup : [a, b, c].Nodup := nodup_of_apart hapart fun x hx hempty => by
    have := hsmall x hx
    simp [hempty] at this
  simp only [List.nodup_cons, List.mem_cons, List.not_mem_nil, or_false, not_or] at hnodup
  obtain ⟨⟨hab, hac⟩, hbc, -⟩ := hnodup
  have ha : ∀ i, placed m (turnOthers a b σ τ) a i = (m.column a)[(i : Nat)]? := fun i => by
    simp [placed, turnOthers]
  have hb : ∀ i, placed m (turnOthers a b σ τ) b i = (m.column b)[(σ i : Nat)]? := fun i => by
    simp [placed, turnOthers, Ne.symm hab]
  have hc : ∀ i, placed m (turnOthers a b σ τ) c i = (m.column c)[(τ i : Nat)]? := fun i => by
    simp [placed, turnOthers, Ne.symm hac, Ne.symm hbc]
  rw [linesOf_eq _ ha hb hc] at h
  obtain ⟨hlocked, -, hpattern, -⟩ := checkLines_some h
  obtain ⟨hgone, heliminates⟩ := checkLines_eliminates hm hf h
  rw [List.forall_mem_ofFn_iff] at hlocked
  simp only [List.mem_ofFn, exists_exists_eq_and] at hgone heliminates
  refine ⟨_, hpattern ▸ .triple ⟨rfl, hactive, hsmall, hapart, fun x hx => ?_, fun i => ?_⟩, hgone,
    heliminates⟩
  · have hcon := (hm.mem_activeConstraints.mp (hactive x hx)).1
    refine setOut_placed (hm.column_candidates_nodup hcon).of_map ?_
    rw [← hm.len_eq hcon, ← hm.card_candidatesIn hcon]
    have := hsmall x hx
    omega
  · exact (isLocked_lineAt hm hf _ i).mp (hlocked i)

theorem findNakedTriple_sound (hm : m.Coherent) (hf : m.Fits) {d : Deduction}
    (h : findNakedTriple m = some d) :
    ∃ gone, ShowsTriple m d.pattern gone ∧ (∃ r, gone r) ∧ d.Eliminates m gone := by
  obtain ⟨a, b, c, hsub, hab, hac, hbc, hd⟩ := firstTriple_some h
  simp only [Bool.not_eq_true'] at hab hac hbc
  have hmem := fun x hx => (mem_small_iff hm).mp (hsub.subset (a := x) hx)
  have hactive := fun x hx => (hmem x hx).1
  exact checkTriple_sound hm hf hactive (fun x hx => (hmem x hx).2)
    (hm.pairwise_apart hf hactive hab hac hbc) hd

/-! ## No triple is passed over -/

section Complete

variable {cs : List ConstraintId} {place : ConstraintId → Fin 3 → Option CellId}

theorem IsTriple.hasConstraint (h : IsTriple m cs place) (hm : m.Coherent) {c : ConstraintId}
    (hc : c ∈ cs) : m.HasConstraint c := (hm.mem_activeConstraints.mp (h.active c hc)).1

theorem IsTriple.nodup_column (h : IsTriple m cs place) (hm : m.Coherent) {c : ConstraintId}
    (hc : c ∈ cs) : (m.column c).Nodup :=
  (hm.column_candidates_nodup (h.hasConstraint hm hc)).of_map

theorem IsTriple.length_column_le (h : IsTriple m cs place) (hm : m.Coherent) {c : ConstraintId}
    (hc : c ∈ cs) : (m.column c).length ≤ 3 := by
  have hcon := h.hasConstraint hm hc
  rw [← hm.len_eq hcon, ← hm.card_candidatesIn hcon]
  have := h.small c hc
  omega

/-- A triple is found in the order in which its constraints are met: with its lines renamed so that
the first constraint keeps its order, it is one that the search tries. -/
theorem IsTriple.checkTriple_ne_none {a b c : ConstraintId} (h : IsTriple m [a, b, c] place)
    (hm : m.Coherent) (hf : m.Fits) {i : Fin 3} {r : CandidateId}
    (hr : m.CommonConflict (lineMembers m (lineAt [a, b, c] place i)) r) :
    checkTriple m a b c ≠ none := by
  have ha : a ∈ [a, b, c] := by simp
  obtain ⟨ρ, hρ⟩ := (h.setOut a ha).exists_perm (h.nodup_column hm ha) (h.length_column_le hm ha)
  have hnamed := h.relabel ρ.symm
  have hperm : ∀ x ∈ [a, b, c], ∃ σ : Equiv.Perm (Fin 3),
      ∀ i, place x (ρ.symm i) = (m.column x)[(σ i : Nat)]? := fun x hx =>
    (hnamed.setOut x hx).exists_perm (h.nodup_column hm hx) (h.length_column_le hm hx)
  obtain ⟨σ, hσ⟩ := hperm b (by simp)
  obtain ⟨τ, hτ⟩ := hperm c (by simp)
  have hfirst : ∀ i, place a (ρ.symm i) = (m.column a)[(i : Nat)]? := fun i => by
    rw [hρ, Equiv.apply_symm_apply]
  refine findSome?_ne_none (mem_lineOrders_iff.mpr ⟨σ, rfl⟩) ?_
  refine findSome?_ne_none (mem_lineOrders_iff.mpr ⟨τ, rfl⟩) ?_
  rw [linesOf_eq (fun x i => place x (ρ.symm i)) hfirst hσ hτ]
  refine checkLines_ne_none hm hf (r := r) ?_ (List.mem_ofFn.mpr ⟨ρ i, rfl⟩) ?_
  · rw [List.forall_mem_ofFn_iff]
    exact fun j => (isLocked_lineAt hm hf _ j).mpr (hnamed.locked j)
  · simpa only [lineAt, Equiv.symm_apply_apply] using hr

theorem IsTriple.findNakedTriple_ne_none (h : IsTriple m cs place) (hm : m.Coherent)
    (hf : m.Fits) {i : Fin 3} {r : CandidateId}
    (hr : m.CommonConflict (lineMembers m (lineAt cs place i)) r) : findNakedTriple m ≠ none := by
  obtain ⟨p, q, s, rfl⟩ := List.length_eq_three.mp h.three
  refine firstTriple_ne_none_of_perm (p := p) (q := q) (r := s) (fun c hc => ?_) ?_ ?_ ?_
  · exact (mem_small_iff hm).mpr ⟨h.active c hc, h.small c hc⟩
  · refine nodup_of_apart h.apart fun c hc hempty => ?_
    have := h.small c hc
    simp [hempty] at this
  · intro c hc d hd hne
    have hapart := (hm.intersects_eq_false_iff hf (h.active c hc) (h.active d hd)).mpr
      (apart_of_pairwise h.apart hc hd hne)
    rw [hapart]
    rfl
  · intro a b c hperm
    have hmembers := perm_lineMembers (m := m) hperm place i
    exact (h.of_perm hperm).checkTriple_ne_none hm hf (hr.congr fun x => hmembers.mem_iff)

end Complete

end Strategy

/-- Three constraints over three digits. The last digit stands in all of them, the others in two
each, and a fourth constraint that can take the first two digits loses both. -/
def sampleLines : Matrix Unit :=
  (Matrix.empty.constrainedAll
    [⟨"p0", .other, true⟩, ⟨"p1", .other, true⟩, ⟨"p2", .other, true⟩, ⟨"p3", .other, true⟩,
      ⟨"d1", .other, false⟩, ⟨"d2", .other, false⟩, ⟨"d3", .other, false⟩]).peopledAll
    [⟨"p0d1", (), [1, 5]⟩, ⟨"p0d2", (), [1, 6]⟩, ⟨"p0d3", (), [1, 7]⟩, ⟨"p1d2", (), [2, 6]⟩,
      ⟨"p1d3", (), [2, 7]⟩, ⟨"p2d1", (), [3, 5]⟩, ⟨"p2d3", (), [3, 7]⟩, ⟨"p3d1", (), [4, 5]⟩,
      ⟨"p3d2", (), [4, 6]⟩, ⟨"p3", (), [4]⟩]

theorem built_sampleLines : sampleLines.Built :=
  (Matrix.Built.empty.constrainedAll (by decide +kernel) (by decide +kernel)).peopledAll
    (by decide +kernel) (by decide +kernel) (by decide +kernel)

section Exact

variable {P : Type}

/-- In every state that is reached, the search for naked triples finds nothing only if no three
constraints without a common candidate, with two or three candidates each, can be set out in three
locked lines in any way so that an active candidate outside a line conflicts with the whole of it,
and it reports constraints set out like that together with all candidates of which that is true. -/
theorem Reached.findNakedTriple_exact {es : List Entry} {m : Matrix P} (h : Reached es m)
    (hf : m.Fits) : Finds m (Strategy.findNakedTriple m) (Strategy.ShowsTriple m) := by
  refine .intro (fun d hd => Strategy.findNakedTriple_sound h.coherent hf hd) ?_
  intro pattern gone r hshows hr
  cases hshows with
  | triple htriple =>
    obtain ⟨i, hr⟩ := hr
    exact htriple.findNakedTriple_ne_none h.coherent hf hr

theorem Reached.findNakedTriple_exact_sampleLines :
    ∃ d : Deduction, Strategy.findNakedTriple sampleLines = some d ∧
      d.pattern = .triple [1, 2, 3]
        [[some 8, none, some 18], [some 10, some 14, none], [some 12, some 16, some 20]] ∧
      d.eliminations.map sampleLines.candidateOf = [8, 9] ∧
      (∃ gone, Strategy.ShowsTriple sampleLines d.pattern gone ∧ d.Eliminates sampleLines gone) ∧
      ¬ ∃ pattern gone, Strategy.ShowsTriple
        ((sampleLines.eliminateRow 22).matrix.eliminateRow 24).matrix pattern gone ∧
          ∃ r, gone r := by
  have hbuilt : Reached [] sampleLines := .built built_sampleLines
  have hfits : sampleLines.Fits := ⟨by decide, by decide⟩
  have hone : Reached [.move (.eliminate 22)] (sampleLines.eliminateRow 22).matrix :=
    hbuilt.move (a := .eliminate 22)
      (by decide +kernel : sampleLines.isCandidateActive (sampleLines.candidateOf 22) = true)
  have htwo : Reached [.move (.eliminate 24), .move (.eliminate 22)]
      ((sampleLines.eliminateRow 22).matrix.eliminateRow 24).matrix :=
    hone.move (a := .eliminate 24) (by decide +kernel :
      (sampleLines.eliminateRow 22).matrix.isCandidateActive
        ((sampleLines.eliminateRow 22).matrix.candidateOf 24) = true)
  have hboard := ((Matrix.relinked_eliminateRow sampleLines 22).trans
    (Matrix.relinked_eliminateRow _ 24)).board
  have hnone : Strategy.findNakedTriple
      ((sampleLines.eliminateRow 22).matrix.eliminateRow 24).matrix = none := by decide +kernel
  have hfound : (Strategy.findNakedTriple sampleLines).map
      (fun d => (d.pattern, d.eliminations.map sampleLines.candidateOf)) =
      some (.triple [1, 2, 3]
        [[some 8, none, some 18], [some 10, some 14, none], [some 12, some 16, some 20]],
        [8, 9]) := by decide +kernel
  obtain ⟨d, hd, heq⟩ := Option.map_eq_some_iff.mp hfound
  obtain ⟨hpattern, heliminations⟩ := Prod.mk.inj heq
  obtain ⟨gone, hshows, -, heliminates⟩ :=
    (Reached.findNakedTriple_exact hbuilt hfits).reports d hd
  exact ⟨d, hd, hpattern, heliminations, ⟨gone, hshows, heliminates⟩,
    (Reached.findNakedTriple_exact htwo (hfits.of_board hboard)).none_iff.mp hnone⟩

end Exact

end ExactCover
