/-
ExactCover.Proofs.Patterns.Pairs — the searches through pairs of constraints are exact.

Locked sets and naked pairs are looked for alike: pairs of active constraints are tried
one after another, by the lower number and then by the higher one, and the first that
allows an elimination is reported. `FirstPair` says which one that is without the
search. A search `FindsFirst` what pairs show if it comes back empty only where no pair
shows anything, and otherwise reports the first pair that does.

For locked sets a pair shows something if one constraint is `Nested` in the other,
whichever of them has the lower number. For naked pairs it is enough that one of the two
ways to match the cells is a crossing (`IsCrossing`) and that something conflicts with
both cells of one of its pairs; what is ruled out is what both ways rule out together
(`PairRulesOut`).
-/
import ExactCover.Proofs.Names
import ExactCover.Proofs.Patterns.Basic

namespace ExactCover

/-! ## The first pair -/

/-- The first pair with a property, the lower number of a pair before the higher one: no other pair
has a lower first number, or the same and a lower second one. -/
structure FirstPair (p : Nat → Nat → Prop) (a b : Nat) : Prop where
  ordered : a < b
  holds : p a b
  first : ∀ c d, c < d → p c d → a < c ∨ a = c ∧ b ≤ d

/-- An answer for a pair of an ascending list comes from the first pair that has one. -/
theorem firstPair_first {β : Type} {f : Nat → Nat → Option β} {xs : List Nat}
    (hxs : xs.Pairwise (· < ·)) {answer : β} (h : firstPair f xs = some answer) :
    ∃ a b, f a b = some answer ∧
      FirstPair (fun a b => a ∈ xs ∧ b ∈ xs ∧ f a b ≠ none) a b := by
  induction xs with
  | nil => cases h
  | cons x rest ih =>
    obtain ⟨hx, hrest⟩ := List.pairwise_cons.mp hxs
    -- of a pair in order only the first member can be `x`
    have hsecond : ∀ c ∈ x :: rest, ∀ d ∈ x :: rest, c < d → d ∈ rest := by
      intro c hc d hd hlt
      rcases List.mem_cons.mp hd with rfl | hd
      · rcases List.mem_cons.mp hc with rfl | hc
        · omega
        · have hxc := hx c hc
          omega
      · exact hd
    unfold firstPair at h
    split at h
    · next found hfound =>
      cases h
      obtain ⟨before, b, after, rfl, hb, hnone⟩ := List.findSome?_eq_some_iff.mp hfound
      have hmem : b ∈ before ++ b :: after := by simp
      refine ⟨x, b, hb, hx b hmem, ⟨by simp, by simp, by simp [hb]⟩, ?_⟩
      rintro c d hlt ⟨hc, hd, hanswer⟩
      have hlater := hsecond c hc d hd hlt
      rcases List.mem_cons.mp hc with rfl | hc
      · refine Or.inr ⟨rfl, ?_⟩
        rcases List.mem_append.mp hlater with hd | hd
        · exact absurd (hnone d hd) hanswer
        · rcases List.mem_cons.mp hd with rfl | hd
          · exact Nat.le_refl _
          · have hafter := (List.pairwise_append.mp hrest).2.1
            exact Nat.le_of_lt (List.rel_of_pairwise_cons hafter hd)
      · exact Or.inl (hx c hc)
    · next hnone =>
      obtain ⟨a, b, hab, hordered, ⟨ha, hb, hne⟩, hfirst⟩ := ih hrest h
      refine ⟨a, b, hab, hordered,
        ⟨List.mem_cons_of_mem x ha, List.mem_cons_of_mem x hb, hne⟩, ?_⟩
      rintro c d hlt ⟨hc, hd, hanswer⟩
      have hlater := hsecond c hc d hd hlt
      rcases List.mem_cons.mp hc with rfl | hc
      · exact absurd (List.findSome?_eq_none_iff.mp hnone d hlater) hanswer
      · exact hfirst c d hlt ⟨hc, hlater, hanswer⟩

/-- A search finds nothing only if no pair shows anything, and what it finds is what it reports of
the first pair that does. -/
structure FindsFirst (found : Option Deduction) (Shows : ConstraintId → ConstraintId → Prop)
    (Reports : ConstraintId → ConstraintId → Deduction → Prop) : Prop where
  none_iff : found = none ↔ ¬ ∃ a b, Shows a b
  reports : ∀ d, found = some d → ∃ a b, FirstPair Shows a b ∧ Reports a b d

/-- Going through pairs of an ascending list finds the first one that shows something, if what a
pair shows is a matter of the two and not of their order, only members of the list show anything,
and a pair has an answer where it shows something. -/
theorem FindsFirst.intro {check : ConstraintId → ConstraintId → Option Deduction}
    {xs : List ConstraintId} {Shows : ConstraintId → ConstraintId → Prop}
    {Reports : ConstraintId → ConstraintId → Deduction → Prop} (hxs : xs.Pairwise (· < ·))
    (hsymm : ∀ a b, Shows a b → Shows b a) (hirrefl : ∀ a, ¬ Shows a a)
    (hmem : ∀ a b, Shows a b → a ∈ xs)
    (hanswer : ∀ a ∈ xs, ∀ b ∈ xs, Shows a b → check a b ≠ none)
    (hreports : ∀ a ∈ xs, ∀ b ∈ xs, ∀ d, check a b = some d → Shows a b ∧ Reports a b d) :
    FindsFirst (firstPair check xs) Shows Reports where
  none_iff := by
    constructor
    · rintro hnone ⟨a, b, hab⟩
      have ha := hmem a b hab
      have hb := hmem b a (hsymm a b hab)
      have hne : a ≠ b := fun heq => hirrefl b (heq ▸ hab)
      obtain ⟨c, d, hsub, hperm⟩ := exists_sublist_pair ha hb hne
      refine firstPair_ne_none hsub ?_ hnone
      rcases List.perm_pair.mp hperm with heq | heq
      · cases heq
        exact hanswer a ha b hb hab
      · cases heq
        exact hanswer b hb a ha (hsymm a b hab)
    · intro hno
      refine Option.eq_none_iff_forall_ne_some.mpr fun d hd => hno ?_
      obtain ⟨a, b, hab, -, ⟨ha, hb, -⟩, -⟩ := firstPair_first hxs hd
      exact ⟨a, b, (hreports a ha b hb d hab).1⟩
  reports := by
    intro d hd
    obtain ⟨a, b, hab, hordered, ⟨ha, hb, -⟩, hfirst⟩ := firstPair_first hxs hd
    obtain ⟨hshows, hreport⟩ := hreports a ha b hb d hab
    refine ⟨a, b, ⟨hordered, hshows, fun x y hlt hxy => ?_⟩, hreport⟩
    have hx := hmem x y hxy
    have hy := hmem y x (hsymm x y hxy)
    exact hfirst x y hlt ⟨hx, hy, hanswer x hx y hy hxy⟩

namespace Strategy

open ExactCover.Matrix

open Coherent (Shares)

variable {P : Type} {m : Matrix P} {a b : ConstraintId} {d : Deduction}

/-! ## Locked sets -/

/-- Two active constraints with candidates, and those of one are among those of the other, which
has more. -/
structure Nested (m : Matrix P) (a b : ConstraintId) : Prop where
  active : a ∈ m.activeConstraints ∧ b ∈ m.activeConstraints
  nonempty : (m.candidatesIn a).Nonempty ∧ (m.candidatesIn b).Nonempty
  nested : m.candidatesIn a ⊂ m.candidatesIn b ∨ m.candidatesIn b ⊂ m.candidatesIn a

/-- The deduction eliminates the candidates of `outer` that are not in `inner`, by their cells in
`outer` and in ascending order. -/
structure Locks (m : Matrix P) (inner outer : ConstraintId) (d : Deduction) : Prop where
  inside : m.candidatesIn inner ⊂ m.candidatesIn outer
  pattern : d.pattern = .lockedSet inner outer
  only : d.actions = d.eliminations.map .eliminate
  cells : ListsCells m.candidateOf
    (fun h => h ∈ m.column outer ∧ m.candidateOf h ∉ m.candidatesIn inner) d.eliminations

/-- What is reported of two constraints one of which is nested in the other. -/
def ReportsLocked (m : Matrix P) (a b : ConstraintId) (d : Deduction) : Prop :=
  ∃ inner outer, [inner, outer].Perm [a, b] ∧ Locks m inner outer d

theorem Nested.symm (h : Nested m a b) : Nested m b a :=
  ⟨h.active.symm, h.nonempty.symm, h.nested.symm⟩

theorem Nested.irrefl : ¬ Nested m a a := fun h =>
  h.nested.elim (fun hlt => hlt.ne rfl) (fun hlt => hlt.ne rfl)

theorem mem_nonempty_iff (hm : m.Coherent) :
    a ∈ m.activeConstraints.filter (fun c => m.len c > 0) ↔
      a ∈ m.activeConstraints ∧ (m.candidatesIn a).Nonempty := by
  rw [List.mem_filter, decide_eq_true_eq]
  refine and_congr_right fun ha => ?_
  rw [← Finset.card_pos, hm.card_candidatesIn (hm.mem_activeConstraints.mp ha).1]

/-- A constraint that is nested in another is found in it, whichever has the lower number. -/
theorem checkLocked_ne_none (hm : m.Coherent) (hf : m.Fits) (h : Nested m a b) :
    checkLocked m a b ≠ none := by
  have ha := (hm.mem_activeConstraints.mp h.active.1).1
  have hb := (hm.mem_activeConstraints.mp h.active.2).1
  unfold checkLocked
  rcases h.nested with hab | hba
  · have hlt := Finset.card_lt_card hab
    rw [hm.card_candidatesIn ha, hm.card_candidatesIn hb] at hlt
    have hstrict := (hm.relatesColumns hf ha hb).strict.mpr hab
    simp [Nat.ne_of_lt hlt, hlt, hstrict]
  · have hlt := Finset.card_lt_card hba
    rw [hm.card_candidatesIn ha, hm.card_candidatesIn hb] at hlt
    have hstrict := (hm.relatesColumns hf hb ha).strict.mpr hba
    simp [Nat.ne_of_gt hlt, Nat.not_lt.mpr (Nat.le_of_lt hlt), hstrict]

theorem lockedSet_locks (hm : m.Coherent) (hf : m.Fits) {inner outer : ConstraintId}
    (hi : inner ∈ m.activeConstraints) (ho : outer ∈ m.activeConstraints)
    (hstrict : m.isStrictSubsetOf inner outer = true) :
    Locks m inner outer (lockedSet m inner outer) := by
  have hci := (hm.mem_activeConstraints.mp hi).1
  have hco := (hm.mem_activeConstraints.mp ho).1
  have hcells : (lockedSet m inner outer).eliminations = m.minus outer inner :=
    Deduction.eliminations_of_map rfl
  constructor
  case inside => exact (hm.relatesColumns hf hci hco).strict.mp hstrict
  case pattern => rfl
  case only => rw [hcells]; rfl
  case cells =>
    rw [hcells]
    exact (hm.relatesColumns hf hco hci).minus

/-- What is found is a constraint nested in another, and what is reported empties the other of all
that is not in it. -/
theorem checkLocked_reports (hm : m.Coherent) (hf : m.Fits)
    (ha : a ∈ m.activeConstraints.filter fun c => m.len c > 0)
    (hb : b ∈ m.activeConstraints.filter fun c => m.len c > 0) (h : checkLocked m a b = some d) :
    Nested m a b ∧ ReportsLocked m a b d := by
  obtain ⟨hactive, hnonempty⟩ := (mem_nonempty_iff hm).mp ha
  obtain ⟨hactive', hnonempty'⟩ := (mem_nonempty_iff hm).mp hb
  obtain ⟨inner, outer, hperm, hstrict, rfl⟩ := checkLocked_some h
  have hboth : ∀ c ∈ [a, b], c ∈ m.activeConstraints := by simp [hactive, hactive']
  have hlocks := lockedSet_locks hm hf (hboth inner (hperm.subset (by simp)))
    (hboth outer (hperm.subset (by simp))) hstrict
  refine ⟨⟨⟨hactive, hactive'⟩, ⟨hnonempty, hnonempty'⟩, ?_⟩, inner, outer, hperm, hlocks⟩
  rcases List.perm_pair.mp hperm with heq | heq
  · cases heq
    exact Or.inl hlocks.inside
  · cases heq
    exact Or.inr hlocks.inside

/-! ## Naked pairs -/

/-- Two active constraints without a common candidate that have two candidates each, matched so that
the two cells of each pair conflict. The pairs can be listed either way. -/
structure IsCrossing (m : Matrix P) (a b : ConstraintId) (matched : CellPair × CellPair) :
    Prop where
  first : Bivalued m false a (matched.1.1, matched.2.1)
  second : Bivalued m false b (matched.1.2, matched.2.2)
  apart : m.Apart a b
  clash : Shares m (m.candidateOf matched.1.1) (m.candidateOf matched.1.2)
  clash' : Shares m (m.candidateOf matched.2.1) (m.candidateOf matched.2.2)

/-- The active candidate is outside a pair and conflicts with both its cells. -/
def ConflictsWith (m : Matrix P) (pair : CellPair) (r : CandidateId) : Prop :=
  m.CommonConflict [m.candidateOf pair.1, m.candidateOf pair.2] r

/-- Some way to match the cells of two constraints has a pair with both of whose cells the candidate
conflicts. -/
def PairRulesOut (m : Matrix P) (a b : ConstraintId) (r : CandidateId) : Prop :=
  ∃ matched, IsCrossing m a b matched ∧
    (ConflictsWith m matched.1 r ∨ ConflictsWith m matched.2 r)

/-- The deduction names a way to match the cells of two constraints, and eliminates all that any way
to match them rules out. -/
structure ReportsPair (m : Matrix P) (a b : ConstraintId) (d : Deduction) : Prop where
  matched : ∃ matched, d.pattern = .pair (a, b) matched ∧ IsCrossing m a b matched
  eliminates : d.Eliminates m (PairRulesOut m a b)

/-- The constraints can change places. -/
theorem IsCrossing.symm {matched : CellPair × CellPair} (h : IsCrossing m a b matched) :
    IsCrossing m b a ((matched.1.2, matched.1.1), (matched.2.2, matched.2.1)) where
  first := h.second
  second := h.first
  apart := h.apart.symm
  clash := Shares.symm h.clash
  clash' := Shares.symm h.clash'

theorem ConflictsWith.swap {pair : CellPair} {r : CandidateId} (h : ConflictsWith m pair r) :
    ConflictsWith m (pair.2, pair.1) r :=
  h.congr (by simp [or_comm])

theorem PairRulesOut.symm {r : CandidateId} (h : PairRulesOut m a b r) : PairRulesOut m b a r := by
  obtain ⟨matched, hcross, hr⟩ := h
  exact ⟨_, hcross.symm, hr.imp ConflictsWith.swap ConflictsWith.swap⟩

theorem IsCrossing.irrefl {matched : CellPair × CellPair} : ¬ IsCrossing m a a matched := fun h =>
  h.first.candidatesIn_ne_empty (disjoint_self.mp h.apart)

theorem mem_map_conflictsOfPair (hm : m.Coherent) (hf : m.Fits) {pair : CellPair}
    {r : CandidateId} : r ∈ (conflictsOfPair m pair).map m.candidateOf ↔ ConflictsWith m pair r :=
  hm.mem_map_commonConflicts hf _ r

section Crossings

variable {x y : CellPair}

/-- What the search takes for a way to match the cells is one. -/
theorem isCrossing_of_mem (hm : m.Coherent) (hf : m.Fits) (ha : a ∈ m.activeConstraints)
    (hb : b ∈ m.activeConstraints) (hapart : m.Apart a b) (hx : m.twoCells? a = some x)
    (hy : m.twoCells? b = some y) {matched : CellPair × CellPair}
    (h : matched ∈ crossings m x y) : IsCrossing m a b matched := by
  obtain ⟨hways, hclash, hclash'⟩ := mem_crossings h
  have hclash := (hm.cellsConflict_iff hf).mp hclash
  have hclash' := (hm.cellsConflict_iff hf).mp hclash'
  have htwo : Bivalued m false a x := ⟨ha, nofun, by rw [twoCells?_some hx]⟩
  have htwo' : Bivalued m false b y := ⟨hb, nofun, by rw [twoCells?_some hy]⟩
  rcases hways with rfl | rfl
  · exact ⟨htwo, htwo', hapart, hclash, hclash'⟩
  · exact ⟨htwo, htwo'.turn, hapart, hclash, hclash'⟩

/-- A way to match the cells is looked at, with its pairs listed one way or the other. -/
theorem IsCrossing.mem_crossings (hm : m.Coherent) (hf : m.Fits) {matched : CellPair × CellPair}
    (h : IsCrossing m a b matched) (hx : m.twoCells? a = some x) (hy : m.twoCells? b = some y) :
    matched ∈ crossings m x y ∨ (matched.2, matched.1) ∈ crossings m x y := by
  obtain ⟨⟨n₁, n₃⟩, n₂, n₄⟩ := matched
  obtain ⟨x', hx', hflip⟩ := h.first.exists_twoCells?
  obtain ⟨y', hy', hflip'⟩ := h.second.exists_twoCells?
  obtain rfl : x' = x := Option.some.inj (hx'.symm.trans hx)
  obtain rfl : y' = y := Option.some.inj (hy'.symm.trans hy)
  have hclash : m.cellsConflict n₁ n₃ = true := (hm.cellsConflict_iff hf).mpr h.clash
  have hclash' : m.cellsConflict n₂ n₄ = true := (hm.cellsConflict_iff hf).mpr h.clash'
  obtain ⟨x₁, x₂⟩ := x'
  obtain ⟨y₁, y₂⟩ := y'
  simp only [flips, List.mem_cons, List.not_mem_nil, or_false, Prod.mk.injEq] at hflip hflip'
  -- the first pair of the search has the first cell of the first constraint
  rcases hflip with ⟨rfl, rfl⟩ | ⟨rfl, rfl⟩
  · refine Or.inl (List.mem_filter.mpr ⟨?_, by simp [hclash, hclash']⟩)
    rcases hflip' with ⟨rfl, rfl⟩ | ⟨rfl, rfl⟩ <;> simp
  · refine Or.inr (List.mem_filter.mpr ⟨?_, by simp [hclash, hclash']⟩)
    rcases hflip' with ⟨rfl, rfl⟩ | ⟨rfl, rfl⟩ <;> simp

/-- The candidates that the search collects are those that some way to match the cells rules
out. -/
theorem mem_conflictsOfCrossings (hm : m.Coherent) (hf : m.Fits) (ha : a ∈ m.activeConstraints)
    (hb : b ∈ m.activeConstraints) (hapart : m.Apart a b) (hx : m.twoCells? a = some x)
    (hy : m.twoCells? b = some y) (r : CandidateId) :
    r ∈ ((crossings m x y).flatMap fun matched =>
        conflictsOfPair m matched.1 ++ conflictsOfPair m matched.2).map m.candidateOf ↔
      PairRulesOut m a b r := by
  simp only [List.map_flatMap, List.map_append, List.mem_flatMap, List.mem_append,
    mem_map_conflictsOfPair hm hf]
  constructor
  · rintro ⟨matched, hmatched, hr⟩
    exact ⟨matched, isCrossing_of_mem hm hf ha hb hapart hx hy hmatched, hr⟩
  · rintro ⟨matched, hcross, hr⟩
    rcases hcross.mem_crossings hm hf hx hy with hmem | hmem
    · exact ⟨matched, hmem, hr⟩
    · exact ⟨_, hmem, hr.symm⟩

end Crossings

/-- What is found is a pair that rules something out, and what is reported eliminates all of it. -/
theorem checkPair_reports (hm : m.Coherent) (hf : m.Fits) (ha : a ∈ m.activeConstraints)
    (hb : b ∈ m.activeConstraints) (h : checkPair m a b = some d) :
    (∃ r, PairRulesOut m a b r) ∧ ReportsPair m a b d := by
  obtain ⟨hmeet, x, y, hx, hy, ⟨matched, rest, hcross, hpattern⟩, hne, hactions⟩ :=
    checkPair_some h
  have hapart := (hm.intersects_eq_false_iff hf ha hb).mp hmeet
  have hgone := mem_conflictsOfCrossings hm hf ha hb hapart hx hy
  have hmatched : matched ∈ crossings m x y := by simp [hcross]
  obtain ⟨k, hk⟩ := List.exists_mem_of_ne_nil _ hne
  refine ⟨⟨m.candidateOf k, (hgone _).mp (List.mem_map_of_mem (mem_of_mem_distinct hk))⟩, ?_⟩
  exact ⟨⟨matched, hpattern, isCrossing_of_mem hm hf ha hb hapart hx hy hmatched⟩,
    Deduction.eliminates_distinct hactions hgone⟩

/-- A pair that rules something out is not passed over. -/
theorem checkPair_ne_none (hm : m.Coherent) (hf : m.Fits) {r : CandidateId}
    (h : PairRulesOut m a b r) : checkPair m a b ≠ none := by
  obtain ⟨matched, hcross, hout⟩ := h
  have ha := hcross.first.active
  have hb := hcross.second.active
  have hmeet := (hm.intersects_eq_false_iff hf ha hb).mpr hcross.apart
  have hx := hcross.first.twoCells?
  have hy := hcross.second.twoCells?
  have hr := mem_map_distinct.mpr
    ((mem_conflictsOfCrossings hm hf ha hb hcross.apart hx hy r).mpr ⟨matched, hcross, hout⟩)
  unfold checkPair
  simp only [hmeet, hx, hy, Bool.false_eq_true, if_false]
  split
  · exact Option.some_ne_none _
  · next hnot =>
    -- nothing is found only where no way to match the cells is left, or nothing conflicts
    generalize hways : crossings m (bivalueAt m a).cells (bivalueAt m b).cells = ways at hr hnot
    cases ways with
    | nil => cases hr
    | cons first others =>
      generalize m.distinct _ = cells at hr hnot
      cases cells with
      | nil => cases hr
      | cons cell rest => exact absurd rfl (hnot first others cell rest rfl)

theorem mem_len_two_of_crossing (hm : m.Coherent) {matched : CellPair × CellPair}
    (h : IsCrossing m a b matched) : a ∈ m.activeConstraintsOfLen 2 :=
  (List.mem_filter.mp (h.first.mem_bivalueConstraints hm)).1

end Strategy

/-- Two constraints with two candidates in common. When `w`, the only candidate that the second one
has for itself, is eliminated, it is nested in the first one, and `y` is out. -/
def sampleNested : Matrix Unit :=
  (Matrix.empty.constrainedAll [⟨"a", .other, true⟩, ⟨"b", .other, true⟩]).peopledAll
    [⟨"x", (), [1, 2]⟩, ⟨"y", (), [1]⟩, ⟨"z", (), [1, 2]⟩, ⟨"w", (), [2]⟩]

theorem built_sampleNested : sampleNested.Built :=
  (Matrix.Built.empty.constrainedAll (by decide +kernel) (by decide +kernel)).peopledAll
    (by decide +kernel) (by decide +kernel) (by decide +kernel)

/-- Two constraints that can be matched both ways when the third candidate of the first, `a3`, is
eliminated. Then each of their candidates conflicts with a pair it is not in, and so does `o`, but
only with `a1` and `b2`, which the second way matches. -/
def sampleMatched : Matrix Unit :=
  (Matrix.empty.constrainedAll
    [⟨"a", .other, true⟩, ⟨"b", .other, true⟩, ⟨"o", .other, true⟩, ⟨"11", .other, false⟩,
      ⟨"22", .other, false⟩, ⟨"12", .other, false⟩, ⟨"21", .other, false⟩]).peopledAll
    [⟨"a1", (), [1, 4, 6]⟩, ⟨"a2", (), [1, 5, 7]⟩, ⟨"a3", (), [1]⟩, ⟨"b1", (), [2, 4, 7]⟩,
      ⟨"b2", (), [2, 5, 6]⟩, ⟨"o", (), [3, 6]⟩, ⟨"p", (), [3]⟩]

theorem built_sampleMatched : sampleMatched.Built :=
  (Matrix.Built.empty.constrainedAll (by decide +kernel) (by decide +kernel)).peopledAll
    (by decide +kernel) (by decide +kernel) (by decide +kernel)

section Exact

variable {P : Type}

/-- In every state that is reached, the search for locked sets finds nothing only if no active
constraint with candidates has all of them among those of another that has more. Otherwise it
reports the first two such constraints, whichever of them is the smaller, and it eliminates the
candidates that only the larger one has, in ascending order. -/
theorem Reached.findLockedSet_exact {es : List Entry} {m : Matrix P} (h : Reached es m)
    (hf : m.Fits) :
    FindsFirst (Strategy.findLockedSet m) (Strategy.Nested m) (Strategy.ReportsLocked m) := by
  have hm := h.coherent
  refine .intro (hm.activeConstraints_ascending.filter _) (fun a b hab => hab.symm)
    (fun a => Strategy.Nested.irrefl) ?_ ?_ ?_
  · intro a b hab
    exact (Strategy.mem_nonempty_iff hm).mpr ⟨hab.active.1, hab.nonempty.1⟩
  · exact fun a _ b _ hab => Strategy.checkLocked_ne_none hm hf hab
  · exact fun a ha b hb d hd => Strategy.checkLocked_reports hm hf ha hb hd

/-- The second constraint is the smaller one, and what it lacks is eliminated from the first. -/
theorem Reached.findLockedSet_exact_sampleNested :
    ∃ (m : Matrix Unit) (d : Deduction), Reached [.move (.eliminate 8)] m ∧
      Strategy.findLockedSet m = some d ∧ d.pattern = .lockedSet 2 1 ∧ d.eliminations = [5] ∧
      (∃ a b, FirstPair (Strategy.Nested m) a b ∧ Strategy.ReportsLocked m a b d) ∧
      Strategy.findLockedSet sampleNested = none ∧
      ¬ ∃ a b, Strategy.Nested sampleNested a b := by
  have hbuilt : Reached [] sampleNested := .built built_sampleNested
  have hfits : sampleNested.Fits := ⟨by decide, by decide⟩
  have hreached : Reached [.move (.eliminate 8)] (sampleNested.eliminateRow 8).matrix :=
    hbuilt.move (a := .eliminate 8)
      (by decide +kernel : sampleNested.isCandidateActive (sampleNested.candidateOf 8) = true)
  have hboard := (Matrix.relinked_eliminateRow sampleNested 8).board
  have hnone : Strategy.findLockedSet sampleNested = none := by decide +kernel
  have hfound : (Strategy.findLockedSet (sampleNested.eliminateRow 8).matrix).map
      (fun d => (d.pattern, d.eliminations)) = some (.lockedSet 2 1, [5]) := by decide +kernel
  obtain ⟨d, hd, heq⟩ := Option.map_eq_some_iff.mp hfound
  obtain ⟨hpattern, heliminations⟩ := Prod.mk.inj heq
  exact ⟨_, d, hreached, hd, hpattern, heliminations,
    (Reached.findLockedSet_exact hreached (hfits.of_board hboard)).reports d hd, hnone,
    (Reached.findLockedSet_exact hbuilt hfits).none_iff.mp hnone⟩

/-- In every state that is reached, the search for naked pairs finds nothing only if no two
constraints of two candidates each can be matched crosswise so that something conflicts with both
cells of a matched pair. Otherwise it reports the first two such constraints with a way to match
them, and it eliminates, each once, all the candidates that either way to match them rules out. -/
theorem Reached.findNakedPair_exact {es : List Entry} {m : Matrix P} (h : Reached es m)
    (hf : m.Fits) :
    FindsFirst (Strategy.findNakedPair m) (fun a b => ∃ r, Strategy.PairRulesOut m a b r)
      (Strategy.ReportsPair m) := by
  have hm := h.coherent
  refine .intro (hm.activeConstraints_ascending.filter _) ?_ ?_ ?_ ?_ ?_
  · rintro a b ⟨r, hr⟩
    exact ⟨r, hr.symm⟩
  · rintro a ⟨r, matched, hcross, -⟩
    exact hcross.irrefl
  · rintro a b ⟨r, matched, hcross, -⟩
    exact Strategy.mem_len_two_of_crossing hm hcross
  · rintro a - b - ⟨r, hr⟩
    exact Strategy.checkPair_ne_none hm hf hr
  · intro a ha b hb d hd
    exact Strategy.checkPair_reports hm hf (Strategy.mem_activeConstraintsOfLen ha)
      (Strategy.mem_activeConstraintsOfLen hb) hd

/-- The first way to match the cells is named, and what the second one rules out is eliminated as
well. -/
theorem Reached.findNakedPair_exact_sampleMatched :
    ∃ (m : Matrix Unit) (d : Deduction), Reached [.move (.eliminate 14)] m ∧
      Strategy.findNakedPair m = some d ∧ d.pattern = .pair (1, 2) ((8, 15), (11, 18)) ∧
      d.eliminations = [11, 18, 8, 15, 21] ∧
      (∃ a b, FirstPair (fun a b => ∃ r, Strategy.PairRulesOut m a b r) a b ∧
        Strategy.ReportsPair m a b d) ∧
      Strategy.findNakedPair sampleMatched = none ∧
      ¬ ∃ a b r, Strategy.PairRulesOut sampleMatched a b r := by
  have hbuilt : Reached [] sampleMatched := .built built_sampleMatched
  have hfits : sampleMatched.Fits := ⟨by decide, by decide⟩
  have hreached : Reached [.move (.eliminate 14)] (sampleMatched.eliminateRow 14).matrix :=
    hbuilt.move (a := .eliminate 14)
      (by decide +kernel : sampleMatched.isCandidateActive (sampleMatched.candidateOf 14) = true)
  have hboard := (Matrix.relinked_eliminateRow sampleMatched 14).board
  have hnone : Strategy.findNakedPair sampleMatched = none := by decide +kernel
  have hfound : (Strategy.findNakedPair (sampleMatched.eliminateRow 14).matrix).map
      (fun d => (d.pattern, d.eliminations)) =
        some (.pair (1, 2) ((8, 15), (11, 18)), [11, 18, 8, 15, 21]) := by decide +kernel
  obtain ⟨d, hd, heq⟩ := Option.map_eq_some_iff.mp hfound
  obtain ⟨hpattern, heliminations⟩ := Prod.mk.inj heq
  exact ⟨_, d, hreached, hd, hpattern, heliminations,
    (Reached.findNakedPair_exact hreached (hfits.of_board hboard)).reports d hd, hnone,
    (Reached.findNakedPair_exact hbuilt hfits).none_iff.mp hnone⟩

end Exact

end ExactCover
