/-
ExactCover.Proofs.Unavoidable — eliminations by common conflict.

The strategies for pairs, triples and wings end alike: they find members of which
every residual cover has one (`Unavoidable`), and eliminate the candidates that
conflict with all members. What is left for each strategy to show is that its
members are unavoidable.
-/
import ExactCover.Proofs.Justification
import ExactCover.Proofs.Relations
import ExactCover.Strategy.Tuple

namespace ExactCover

/-! ## Pairs and triples of a list -/

section Tuples

variable {α β : Type}

/-- An answer for a pair comes from two members, the first before the second. -/
theorem firstPair_some {f : α → α → Option β} {xs : List α} {answer : β}
    (h : firstPair f xs = some answer) :
    ∃ a b, [a, b].Sublist xs ∧ f a b = some answer := by
  induction xs with
  | nil => cases h
  | cons a rest ih =>
    unfold firstPair at h
    split at h
    · next found hfound =>
      cases h
      obtain ⟨b, hb, hf⟩ := List.exists_of_findSome?_eq_some hfound
      exact ⟨a, b, (List.singleton_sublist.mpr hb).cons_cons a, hf⟩
    · obtain ⟨b, c, hbc, hf⟩ := ih h
      exact ⟨b, c, hbc.cons a, hf⟩

/-- An answer for a triple comes from three members in order that are pairwise apart. -/
theorem firstTriple_some {apart : α → α → Bool} {f : α → α → α → Option β} {xs : List α}
    {answer : β} (h : firstTriple apart f xs = some answer) :
    ∃ a b c, [a, b, c].Sublist xs ∧ apart a b = true ∧ apart a c = true ∧ apart b c = true ∧
      f a b c = some answer := by
  induction xs with
  | nil => cases h
  | cons a rest ih =>
    unfold firstTriple at h
    dsimp only at h
    split at h
    · next found hfound =>
      cases h
      obtain ⟨b, c, hbc, hf⟩ := firstPair_some hfound
      split at hf
      · next hapart =>
        have hmem : ∀ x ∈ [b, c], apart a x = true := fun x hx =>
          (List.mem_filter.mp (hbc.subset hx)).2
        exact ⟨a, b, c, (hbc.trans List.filter_sublist).cons_cons a, hmem b (by simp),
          hmem c (by simp), hapart, hf⟩
      · cases hf
    · obtain ⟨b, c, d, hsub, hrest⟩ := ih h
      exact ⟨b, c, d, hsub.cons a, hrest⟩

/-- A pair that has an answer is not passed over. -/
theorem firstPair_ne_none {f : α → α → Option β} {xs : List α} {a b : α}
    (hab : [a, b].Sublist xs) (hf : f a b ≠ none) : firstPair f xs ≠ none := by
  induction xs with
  | nil => cases hab
  | cons x rest ih =>
    unfold firstPair
    split
    · exact Option.some_ne_none _
    · next hnone =>
      cases hab with
      | cons _ hrest => exact ih hrest
      | cons_cons _ hrest =>
        have hb := List.singleton_sublist.mp hrest
        exact absurd (List.findSome?_eq_none_iff.mp hnone b hb) hf

/-- A triple that has an answer is not passed over, if its members are pairwise apart. -/
theorem firstTriple_ne_none {apart : α → α → Bool} {f : α → α → α → Option β} {xs : List α}
    {a b c : α} (habc : [a, b, c].Sublist xs) (hab : apart a b = true) (hac : apart a c = true)
    (hbc : apart b c = true) (hf : f a b c ≠ none) : firstTriple apart f xs ≠ none := by
  induction xs with
  | nil => cases habc
  | cons x rest ih =>
    unfold firstTriple
    dsimp only
    split
    · exact Option.some_ne_none _
    · next hnone =>
      cases habc with
      | cons _ hrest => exact ih hrest
      | cons_cons _ hrest =>
        have hkept := hrest.filter (apart a)
        simp only [List.filter_cons, hab, hac, if_true, List.filter_nil] at hkept
        exact absurd hnone (firstPair_ne_none hkept (by rwa [if_pos hbc]))

/-- Two different members of a list stand in it in some order. -/
theorem exists_sublist_pair {xs : List α} {x y : α} (hx : x ∈ xs) (hy : y ∈ xs) (hne : x ≠ y) :
    ∃ a b, [a, b].Sublist xs ∧ [a, b].Perm [x, y] := by
  have hmem : ∀ z ∈ [x, y], z ∈ xs := by simp [hx, hy]
  obtain ⟨ys, hperm, hsub⟩ := List.subperm_of_subset (by simpa using hne) hmem
  obtain ⟨a, b, rfl⟩ := List.length_eq_two.mp hperm.length_eq
  exact ⟨a, b, hsub, hperm⟩

/-- Three different members of a list stand in it in some order. -/
theorem exists_sublist_perm {xs : List α} {p q r : α} (hmem : ∀ x ∈ [p, q, r], x ∈ xs)
    (hnodup : [p, q, r].Nodup) : ∃ a b c, [a, b, c].Sublist xs ∧ [a, b, c].Perm [p, q, r] := by
  obtain ⟨ys, hperm, hsub⟩ := List.subperm_of_subset hnodup hmem
  obtain ⟨a, b, c, rfl⟩ := List.length_eq_three.mp hperm.length_eq
  exact ⟨a, b, c, hsub, hperm⟩

/-- Three different members that are pairwise apart are not passed over, if they have an answer in
whatever order they stand. -/
theorem firstTriple_ne_none_of_perm {apart : α → α → Bool} {f : α → α → α → Option β}
    {xs : List α} {p q r : α} (hmem : ∀ x ∈ [p, q, r], x ∈ xs) (hnodup : [p, q, r].Nodup)
    (hapart : ∀ x ∈ [p, q, r], ∀ y ∈ [p, q, r], x ≠ y → apart x y = true)
    (hf : ∀ a b c, [a, b, c].Perm [p, q, r] → f a b c ≠ none) : firstTriple apart f xs ≠ none := by
  obtain ⟨a, b, c, hsub, hperm⟩ := exists_sublist_perm hmem hnodup
  have hall : [a, b, c].Pairwise fun x y => apart x y = true :=
    (hperm.nodup_iff.mpr hnodup).imp_of_mem fun hx hy hne =>
      hapart _ (hperm.subset hx) _ (hperm.subset hy) hne
  simp only [List.pairwise_cons, List.mem_cons, List.not_mem_nil, or_false, forall_eq_or_imp,
    forall_eq] at hall
  exact firstTriple_ne_none hsub hall.1.1 hall.1.2 hall.2.1 (hf a b c hperm)

end Tuples

namespace Matrix

variable {P : Type} {m : Matrix P}

/-- Every residual cover has one of the members. -/
def Unavoidable (m : Matrix P) (members : List CandidateId) : Prop :=
  ∀ S, m.ResidualCover S → ∃ x ∈ members, x ∈ S

/-- Common conflicts are the active candidates outside that conflict with every member, by their
first cells. -/
theorem Coherent.mem_commonConflicts (hm : m.Coherent) (hf : m.Fits) {members : List CandidateId}
    {h : CellId} (hh : h ∈ m.commonConflicts members) :
    m.isCandidateActive (m.candidateOf h) = true ∧ m.candidateOf h ∉ members ∧
      ∀ x ∈ members, Shares m (m.candidateOf h) x := by
  obtain ⟨r, hr, rfl⟩ := List.mem_map.mp hh
  obtain ⟨hactive, hkept⟩ := List.mem_filter.mp hr
  have ha := hm.mem_activeCandidates.mp hactive
  rw [hm.candidateOf_firstCell ha]
  simp only [Bool.and_eq_true, Bool.not_eq_true', List.contains_eq_mem, decide_eq_false_iff_not,
    List.all_eq_true] at hkept
  exact ⟨ha, hkept.1, fun x hx => (hm.conflicts_iff hf).mp (hkept.2 x hx)⟩

/-- What conflicts with all of some unavoidable members is in no residual cover. -/
theorem Unavoidable.excluded (hm : m.Coherent) (hf : m.Fits) {members : List CandidateId}
    (hu : m.Unavoidable members) {h : CellId} (hh : h ∈ m.commonConflicts members) :
    m.Excluded (m.candidateOf h) := by
  intro S hS hr
  obtain ⟨-, hout, hshares⟩ := hm.mem_commonConflicts hf hh
  obtain ⟨x, hx, hxS⟩ := hu S hS
  exact hout (hS.eq_of_shares hr hxS (hshares x hx) ▸ hx)

/-! ## Each candidate once -/

/-- What is kept of some cells, behind those kept already, is different candidates. -/
theorem distinct_foldl (cells : List CellId) :
    ∀ kept : List CellId, (kept.map m.candidateOf).Nodup →
      ((cells.foldl (fun kept h => if kept.any fun k => m.candidateOf k == m.candidateOf h
        then kept else h :: kept) kept).map m.candidateOf).Nodup ∧
      ∀ h ∈ cells.foldl (fun kept h => if kept.any fun k => m.candidateOf k == m.candidateOf h
        then kept else h :: kept) kept, h ∈ kept ∨ h ∈ cells := by
  induction cells with
  | nil => exact fun kept hkept => ⟨hkept, fun h hh => Or.inl hh⟩
  | cons x cells ih =>
    intro kept hkept
    rw [List.foldl_cons]
    by_cases hseen : (kept.any fun k => m.candidateOf k == m.candidateOf x) = true
    · rw [if_pos hseen]
      obtain ⟨hnodup, hmem⟩ := ih kept hkept
      exact ⟨hnodup, fun h hh => (hmem h hh).imp id (List.mem_cons_of_mem x)⟩
    · rw [if_neg hseen]
      have hnew : m.candidateOf x ∉ kept.map m.candidateOf := by
        intro hx
        obtain ⟨k, hk, he⟩ := List.mem_map.mp hx
        exact hseen (List.any_eq_true.mpr ⟨k, hk, beq_iff_eq.mpr he⟩)
      obtain ⟨hnodup, hmem⟩ := ih (x :: kept) (List.nodup_cons.mpr ⟨hnew, hkept⟩)
      refine ⟨hnodup, fun h hh => ?_⟩
      rcases hmem h hh with hk | hc
      · rcases List.mem_cons.mp hk with rfl | hk
        · exact Or.inr List.mem_cons_self
        · exact Or.inl hk
      · exact Or.inr (List.mem_cons_of_mem x hc)

theorem nodup_distinct (m : Matrix P) (cells : List CellId) :
    ((m.distinct cells).map m.candidateOf).Nodup := by
  unfold distinct
  rw [List.map_reverse, List.nodup_reverse]
  exact (distinct_foldl cells [] List.nodup_nil).1

theorem mem_of_mem_distinct {cells : List CellId} {h : CellId} (hh : h ∈ m.distinct cells) :
    h ∈ cells := by
  unfold distinct at hh
  rcases (distinct_foldl cells [] List.nodup_nil).2 h (List.mem_reverse.mp hh) with hk | hc
  · cases hk
  · exact hc

/-- No candidate is lost. -/
theorem mem_map_distinct {cells : List CellId} {r : CandidateId} :
    r ∈ (m.distinct cells).map m.candidateOf ↔ r ∈ cells.map m.candidateOf := by
  have hfold : ∀ (cells kept : List CellId),
      r ∈ (cells.foldl (fun kept h => if kept.any fun k => m.candidateOf k == m.candidateOf h
        then kept else h :: kept) kept).map m.candidateOf ↔
      r ∈ kept.map m.candidateOf ∨ r ∈ cells.map m.candidateOf := by
    intro cells
    induction cells with
    | nil => simp
    | cons x cells ih =>
      intro kept
      rw [List.foldl_cons, ih, List.map_cons, List.mem_cons]
      split
      · next hseen =>
        obtain ⟨k, hk, heq⟩ := List.any_eq_true.mp hseen
        have hx : r = m.candidateOf x → r ∈ kept.map m.candidateOf := by
          rintro rfl
          exact beq_iff_eq.mp heq ▸ List.mem_map_of_mem hk
        tauto
      · rw [List.map_cons, List.mem_cons, or_assoc, or_left_comm]
  unfold distinct
  rw [List.map_reverse, List.mem_reverse, hfold]
  simp

/-- The distinct common conflicts of several lists of unavoidable members can be eliminated. -/
theorem Coherent.allExcluded_distinct (hm : m.Coherent) (hf : m.Fits) {cells : List CellId}
    (hc : ∀ h ∈ cells, ∃ members, m.Unavoidable members ∧ h ∈ m.commonConflicts members) :
    m.AllExcluded (m.distinct cells) := by
  refine ⟨m.nodup_distinct cells, fun h hh => ?_, fun h hh => ?_⟩
  · obtain ⟨members, -, hmem⟩ := hc h (mem_of_mem_distinct hh)
    exact (hm.mem_commonConflicts hf hmem).1
  · obtain ⟨members, hu, hmem⟩ := hc h (mem_of_mem_distinct hh)
    exact hu.excluded hm hf hmem

/-! ## Covers and disjoint constraints -/

section Disjoint

variable {S : Finset CandidateId} {a b : ConstraintId} {h k : CellId}

/-- Cells of constraints without a common candidate belong to different candidates. -/
theorem Coherent.ne_of_not_intersects (hm : m.Coherent) (hf : m.Fits)
    (ha : a ∈ m.activeConstraints) (hb : b ∈ m.activeConstraints)
    (hdisjoint : m.intersects a b = false) (hh : h ∈ m.column a) (hk : k ∈ m.column b) :
    m.candidateOf h ≠ m.candidateOf k := by
  intro he
  have hmeet := (hm.intersects_iff hf (hm.mem_activeConstraints.mp ha).1
    (hm.mem_activeConstraints.mp hb).1).mpr
      ⟨_, List.mem_map_of_mem hh, he ▸ List.mem_map_of_mem hk⟩
  rw [hdisjoint] at hmeet
  cases hmeet

/-- Of two conflicting cells of such constraints a cover has one at most. -/
theorem Coherent.not_both (hm : m.Coherent) (hf : m.Fits) (ha : a ∈ m.activeConstraints)
    (hb : b ∈ m.activeConstraints) (hdisjoint : m.intersects a b = false) (hh : h ∈ m.column a)
    (hk : k ∈ m.column b) (hclash : m.cellsConflict h k = true) (hS : m.ResidualCover S)
    (hhS : m.candidateOf h ∈ S) : m.candidateOf k ∉ S := fun hkS =>
  hm.ne_of_not_intersects hf ha hb hdisjoint hh hk
    (hS.eq_of_shares hhS hkS ((hm.cellsConflict_iff hf).mp hclash))

/-- A cover has one of the two candidates of a constraint that has two. -/
theorem Coherent.one_of_two (hm : m.Coherent) (ha : a ∈ m.activeConstraints)
    (hcells : m.column a = [h, k]) (hS : m.ResidualCover S) :
    m.candidateOf h ∈ S ∨ m.candidateOf k ∈ S := by
  obtain ⟨x, hx, hxS⟩ := hm.exists_mem_column ha hS
  rw [hcells] at hx
  rcases List.mem_pair.mp hx with rfl | rfl
  · exact Or.inl hxS
  · exact Or.inr hxS

theorem twoCells?_some {c : ConstraintId} {pair : CellPair} (h : m.twoCells? c = some pair) :
    m.column c = [pair.1, pair.2] := by
  unfold twoCells? at h
  split at h
  · next a b hcol =>
    cases h
    exact hcol
  · cases h

end Disjoint

end Matrix

end ExactCover
