/-
ExactCover.Proofs.Representation — what the circles and counts of a matrix stand
for, in every state it can get into.

`Removes m n lost` is the account of an operation: some constraints are covered
and with them goes every candidate that satisfies one of them, and the candidates
in `lost` are eliminated besides. Accounts add up along a history
(`Trail.removes`), so the candidates that are possible in the end are those that no
covered constraint rules out and no open entry eliminates.

`Represents` spells out what a reader of the matrix can rely on, and
`Reached.represents` is the one theorem about it.
-/
import ExactCover.Proofs.Histories

namespace ExactCover

/-! ## What was eliminated -/

section Eliminated

variable {P : Type}

/-- The candidate that a move eliminates. -/
def Move.eliminated (m : Matrix P) : Move → List CandidateId
  | eliminate h => [m.candidateOf h]
  | cover _ | coverRow _ | push _ => []

/-- The candidates that an entry of a history eliminates. -/
def Entry.eliminated (m : Matrix P) : Entry → List CandidateId
  | hint _ => []
  | move a => a.eliminated m
  | deduction d => d.eliminations.map m.candidateOf

theorem Entry.eliminated_of_board {m n : Matrix P} (e : n.board = m.board) :
    Entry.eliminated n = Entry.eliminated m := by
  funext k
  cases k with
  | hint h => rfl
  | move a => cases a <;> simp only [eliminated, Move.eliminated, Matrix.candidateOf_of_board e]
  | deduction d => simp only [eliminated, Matrix.candidateOf_of_board e]

end Eliminated

namespace Matrix

variable {P : Type} {m n : Matrix P}

/-- `n` is `m` with some constraints covered and the candidates `lost` eliminated besides. -/
def Removes (m n : Matrix P) (lost : CandidateId → Prop) : Prop :=
  ∃ cs, m.Narrows n cs fun r => (∃ c, m.Hits r c ∧ cs c) ∨ lost r

theorem Removes.refl (m : Matrix P) : m.Removes m fun _ => False :=
  ⟨fun _ => False, (Narrows.refl m).congr (by simp) (by simp)⟩

theorem Removes.board {lost : CandidateId → Prop} (h : m.Removes n lost) : n.board = m.board := by
  obtain ⟨cs, hn⟩ := h
  exact hn.board

theorem Removes.congr {lost gone : CandidateId → Prop} (h : m.Removes n lost)
    (he : ∀ r, lost r ↔ gone r) : m.Removes n gone := by
  obtain ⟨cs, hn⟩ := h
  exact ⟨cs, hn.congr (fun _ => Iff.rfl) fun r _ => or_congr_right (he r)⟩

/-- Accounts add up. -/
theorem Removes.trans {o : Matrix P} {lost gone : CandidateId → Prop} (h : m.Removes n lost)
    (k : n.Removes o gone) : m.Removes o fun r => lost r ∨ gone r := by
  obtain ⟨cs, hn⟩ := h
  obtain ⟨ds, hk⟩ := k
  rw [hits_of_board hn.board] at hk
  refine ⟨fun c => cs c ∨ ds c, (hn.trans hk).congr (fun _ => Iff.rfl) fun r _ => ?_⟩
  constructor
  · rintro ((⟨c, hr, hc⟩ | hr) | (⟨c, hr, hc⟩ | hr))
    · exact Or.inl ⟨c, hr, Or.inl hc⟩
    · exact Or.inr (Or.inl hr)
    · exact Or.inl ⟨c, hr, Or.inr hc⟩
    · exact Or.inr (Or.inr hr)
  · rintro (⟨c, hr, hc | hc⟩ | (hr | hr))
    · exact Or.inl (Or.inl ⟨c, hr, hc⟩)
    · exact Or.inr (Or.inl ⟨c, hr, hc⟩)
    · exact Or.inl (Or.inr hr)
    · exact Or.inr (Or.inr hr)

/-- What other fields than the board and the links are is no part of an account. -/
theorem Removes.of_links {o : Matrix P} {lost : CandidateId → Prop} (h : m.Removes n lost)
    (hb : o.board = n.board) (hl : o.links = n.links) : m.Removes o lost := by
  obtain ⟨cs, hn⟩ := h
  refine ⟨cs, hb.trans hn.board, ?_, ?_⟩
  · simp only [isCovered, hl]
    exact hn.covered
  · simp only [isCandidateActive, hl]
    exact hn.active

theorem Coherent.removes_place {h : CellId} (hm : m.Coherent)
    (ha : m.isCandidateActive (m.candidateOf h) = true) :
    m.Removes (m.place h).matrix fun _ => False :=
  ⟨_, (hm.narrows_place ha).congr (fun _ => Iff.rfl) fun r _ => by simp [Coherent.Shares]⟩

theorem Coherent.removes_eliminateRow {h : CellId} (hm : m.Coherent)
    (ha : m.isCandidateActive (m.candidateOf h) = true) :
    m.Removes (m.eliminateRow h).matrix (· = m.candidateOf h) :=
  ⟨_, (hm.narrows_eliminateRow ha).congr (fun _ => Iff.rfl) fun r _ => by simp⟩

end Matrix

/-! ## Accounts of operations -/

section Accounts

variable {P : Type} {m : Matrix P}

theorem Move.removes_run {a : Move} (hm : m.Coherent) (ha : a.Allowed m) :
    m.Removes (a.run m).matrix (· ∈ a.eliminated m) := by
  cases a with
  | cover c =>
    exact ⟨_, (hm.narrows_cover ha.1 ha.2).congr (fun _ => Iff.rfl) fun r _ => by
      simp [eliminated]⟩
  | coverRow h =>
    refine ⟨_, (hm.narrows_coverRow ha).congr (fun _ => Iff.rfl) fun r _ => ?_⟩
    simp only [eliminated, List.not_mem_nil, or_false]
    constructor
    · intro h'
      obtain ⟨x, hx, hr⟩ := h'
      exact ⟨_, hr, x, hx, rfl⟩
    · intro h'
      obtain ⟨c, hr, x, hx, rfl⟩ := h'
      exact ⟨x, hx, hr⟩
  | eliminate h => exact (hm.removes_eliminateRow ha).congr fun r => by simp [eliminated]
  | push h =>
    refine ((Matrix.Removes.refl m).congr fun r => ?_).of_links rfl rfl
    simp [eliminated]

theorem Action.removes_applyAll {as : List Action} (hm : m.Coherent)
    (ha : Action.AllAllowed m as) :
    m.Removes (runChanges Action.apply m as).1 fun r =>
      ∃ h, Action.eliminate h ∈ as ∧ m.candidateOf h = r := by
  induction as generalizing m with
  | nil => exact (Matrix.Removes.refl m).congr fun r => by simp
  | cons a as ih =>
    have hrest := ih (Action.coherent_apply hm ha.1) ha.2
    cases a with
    | solve h =>
      have hone : m.Removes (Action.apply m (.solve h)).1 fun _ => False :=
        (hm.removes_place ha.1).of_links rfl rfl
      rw [Matrix.candidateOf_of_board hone.board] at hrest
      exact (hone.trans hrest).congr fun r => by simp
    | eliminate h =>
      have hone : m.Removes (Action.apply m (.eliminate h)).1 (· = m.candidateOf h) :=
        hm.removes_eliminateRow ha.1
      rw [Matrix.candidateOf_of_board hone.board] at hrest
      refine (hone.trans hrest).congr fun r => ?_
      simp only [List.mem_cons, Action.eliminate.injEq, or_and_right, exists_or, exists_eq_left]
      rw [eq_comm]

theorem Deduction.mem_eliminations {d : Deduction} {h : CellId} :
    h ∈ d.eliminations ↔ Action.eliminate h ∈ d.actions := by
  simp only [eliminations, List.mem_filterMap]
  constructor
  · intro h'
    obtain ⟨a, ha, he⟩ := h'
    cases a with
    | solve k => cases he
    | eliminate k => cases he; exact ha
  · intro ha
    exact ⟨_, ha, rfl⟩

/-- What is left after a history, compared with the matrix it began with. -/
theorem Trail.removes {es : List Entry} {m : Matrix P} (h : Trail es m) :
    ∃ m₀ : Matrix P, m₀.Fresh ∧ m₀.Removes m (· ∈ es.flatMap (Entry.eliminated m)) := by
  induction h with
  | built hb => exact ⟨_, hb.fresh, (Matrix.Removes.refl _).congr fun r => by simp⟩
  | @hint es m h hbefore ha ih =>
    obtain ⟨m₀, hfresh, hr⟩ := ih
    have hone := (hbefore.coherent.removes_place ha).of_links
      (o := { (m.place h).matrix with hints := (m.place h).matrix.hints.push h }) rfl rfl
    rw [Entry.eliminated_of_board hone.board]
    exact ⟨m₀, hfresh, (hr.trans hone).congr fun r => by simp [Entry.eliminated]⟩
  | move hbefore ha ih =>
    obtain ⟨m₀, hfresh, hr⟩ := ih
    have hone := Move.removes_run hbefore.coherent ha
    rw [Entry.eliminated_of_board hone.board]
    refine ⟨m₀, hfresh, (hr.trans hone).congr fun r => ?_⟩
    rw [List.flatMap_cons, List.mem_append, or_comm]
    rfl
  | @apply es m d hbefore hd ih =>
    obtain ⟨m₀, hfresh, hr⟩ := ih
    have hone : m.Removes (d.apply m).1 _ := Action.removes_applyAll hbefore.coherent hd
    rw [Entry.eliminated_of_board hone.board]
    refine ⟨m₀, hfresh, (hr.trans hone).congr fun r => ?_⟩
    rw [List.flatMap_cons, List.mem_append, or_comm]
    simp only [Entry.eliminated, List.mem_map, Deduction.mem_eliminations]

end Accounts

/-! ## The circles and the counts -/

namespace Matrix

variable {P : Type}

/-- The circles and the counts of a matrix say what is left of it when the given candidates have
been eliminated. -/
structure Represents (m : Matrix P) (eliminated : List CandidateId) : Prop where
  constraints_circle : m.links.constraints.Circle 0 m.activeConstraints
  constraints_ascending : m.activeConstraints.Pairwise (· < ·)
  mem_constraints : ∀ c, c ∈ m.activeConstraints ↔
    m.HasConstraint c ∧ m.isPrimary c = true ∧ m.isCovered c = false
  constraints_balance : m.links.activeConstraints.balance = m.activeConstraints.length
  constraints_count : m.activeConstraintCount = m.activeConstraints.length
  candidates_circle : m.links.candidates.Circle 0 m.activeCandidates
  candidates_ascending : m.activeCandidates.Pairwise (· < ·)
  mem_candidates : ∀ r, r ∈ m.activeCandidates ↔
    m.HasCandidate r ∧ (∀ c, m.Hits r c → m.isCovered c = false) ∧ r ∉ eliminated
  candidates_balance : m.links.activeCandidates.balance = m.activeCandidates.length
  candidates_count : m.activeCandidateCount = m.activeCandidates.length
  column_circle : ∀ c, m.HasConstraint c → m.links.columns.Circle (m.head c) (m.column c)
  /-- Up and down are inverse to each other on the way round a column. -/
  column_turn : ∀ c, m.HasConstraint c → ∀ x ∈ m.head c :: m.column c,
    m.links.columns.prev (m.links.columns.next x) = x ∧
      m.links.columns.next (m.links.columns.prev x) = x
  column_ascending : ∀ c, m.HasConstraint c → ((m.column c).map m.candidateOf).Pairwise (· < ·)
  mem_column : ∀ c, m.HasConstraint c → m.isCovered c = false → ∀ x, x ∈ m.column c ↔
    m.constraintOf x = c ∧ m.candidateOf x ∈ m.activeCandidates
  len_balance : ∀ c, m.HasConstraint c → m.links.lens[c]? = some ⟨(m.column c).length⟩
  len_eq : ∀ c, m.HasConstraint c → m.len c = (m.column c).length

namespace Coherent

variable {m : Matrix P}

theorem activeConstraints_ascending (hm : m.Coherent) : m.activeConstraints.Pairwise (· < ·) := by
  rw [hm.constraints.activeConstraints_eq]
  exact List.Pairwise.filter _ List.pairwise_lt_range'

theorem activeCandidates_ascending (hm : m.Coherent) : m.activeCandidates.Pairwise (· < ·) := by
  rw [hm.candidates.activeCandidates_eq]
  exact List.Pairwise.filter _ List.pairwise_lt_range'

theorem mem_activeConstraints (hm : m.Coherent) {c : ConstraintId} :
    c ∈ m.activeConstraints ↔
      m.HasConstraint c ∧ m.isPrimary c = true ∧ m.isCovered c = false := by
  rw [hm.constraints.activeConstraints_eq, mem_openConstraints]
  simp only [isConstraintActive, Bool.and_eq_true, Bool.not_eq_true']

theorem mem_activeCandidates (hm : m.Coherent) {r : CandidateId} :
    r ∈ m.activeCandidates ↔ m.isCandidateActive r = true := by
  rw [hm.candidates.activeCandidates_eq, mem_openCandidates]
  exact ⟨fun h => h.2, fun h => ⟨hm.hasCandidate h, h⟩⟩

theorem activeConstraintCount_eq (hm : m.Coherent) :
    m.activeConstraintCount = m.activeConstraints.length := by
  rw [activeConstraintCount, hm.constraints.count, hm.constraints.activeConstraints_eq]
  exact Tally.count_ofNat _

theorem activeCandidateCount_eq (hm : m.Coherent) :
    m.activeCandidateCount = m.activeCandidates.length := by
  rw [activeCandidateCount, hm.candidates.count, hm.candidates.activeCandidates_eq]
  exact Tally.count_ofNat _

theorem len_eq (hm : m.Coherent) {c : ConstraintId} (hc : m.HasConstraint c) :
    m.len c = (m.column c).length := by
  rw [len, Array.getD_eq_getD_getElem?, hm.columns.len c hc]
  exact Tally.count_ofNat _

/-- The cells of an open column are those of its active candidates. -/
theorem mem_column_iff (hm : m.Coherent) {c : ConstraintId} {x : CellId}
    (hc : m.HasConstraint c) (hu : m.isCovered c = false) :
    x ∈ m.column c ↔ m.constraintOf x = c ∧ m.isCandidateActive (m.candidateOf x) = true := by
  rw [hm.mem_column hc hu, mem_cellsOf]
  constructor
  · intro h'
    obtain ⟨⟨-, hxc⟩, ha⟩ := h'
    exact ⟨hxc, ha⟩
  · intro h'
    obtain ⟨hxc, ha⟩ := h'
    exact ⟨⟨Nat.ne_of_gt (hm.hasCandidate ha).1, hxc⟩, ha⟩

end Coherent

end Matrix

section Represented

variable {P : Type}

/-- In every state that is reached, the circles are closed in both directions and come in ascending
order, the active constraints are the primary ones that are not covered, the active candidates are
those that neither a covered constraint nor an open entry has ruled out, an open column holds the
cells of its active candidates, and every count is the length of its circle. -/
theorem Reached.represents {es : List Entry} {m : Matrix P} (h : Reached es m) :
    m.Represents (es.flatMap (Entry.eliminated m)) := by
  have hm := h.coherent
  obtain ⟨m₀, hfresh, cs, hn⟩ := h.trail.removes
  have hcs : ∀ c, m.isCovered c = true ↔ cs c := fun c => by
    rw [hn.covered, hfresh.uncovered c]
    simp
  have hactive : ∀ r, m.isCandidateActive r = true ↔
      m.HasCandidate r ∧ (∀ c, m.Hits r c → m.isCovered c = false) ∧
        r ∉ es.flatMap (Entry.eliminated m) := by
    intro r
    rw [Matrix.hits_of_board hn.board]
    constructor
    · intro ha
      obtain ⟨-, hgone⟩ := (hn.active r).mp ha
      refine ⟨hm.hasCandidate ha, fun c hc => ?_, fun hr => hgone (Or.inr hr)⟩
      refine Bool.eq_false_iff.mpr fun hcov => hgone (Or.inl ⟨c, hc, (hcs c).mp hcov⟩)
    · intro h'
      obtain ⟨hr, hopen, hkept⟩ := h'
      rw [Matrix.hasCandidate_of_board hn.board] at hr
      refine (hn.active r).mpr ⟨hfresh.active r hr, ?_⟩
      intro h'
      rcases h' with ⟨c, hc, hcov⟩ | hlost
      · rw [← hcs, hopen c hc] at hcov
        cases hcov
      · exact hkept hlost
  refine
    { constraints_circle := ?_, constraints_ascending := hm.activeConstraints_ascending
      mem_constraints := fun c => hm.mem_activeConstraints
      constraints_balance := ?_, constraints_count := hm.activeConstraintCount_eq
      candidates_circle := ?_, candidates_ascending := hm.activeCandidates_ascending
      mem_candidates := fun r => hm.mem_activeCandidates.trans (hactive r)
      candidates_balance := ?_, candidates_count := hm.activeCandidateCount_eq
      column_circle := hm.columns.circle
      column_turn := fun c hc x hx => (hm.columns.circle c hc).turn hx
      column_ascending := fun c hc => hm.column_ascending hc
      mem_column := fun c hc hu x => ?_
      len_balance := hm.columns.len, len_eq := fun c hc => hm.len_eq hc }
  · rw [hm.constraints.activeConstraints_eq]
    exact hm.constraints.circle
  · rw [hm.constraints.count, hm.constraints.activeConstraints_eq]
  · rw [hm.candidates.activeCandidates_eq]
    exact hm.candidates.circle
  · rw [hm.candidates.count, hm.candidates.activeCandidates_eq]
  · rw [hm.mem_column_iff hc hu, hm.mem_activeCandidates]

theorem Reached.represents_sample :
    ∃ m : Matrix Unit, Reached [.move (.eliminate 8), .hint 4] m ∧ m.Represents [3] := by
  have hhint : Matrix.sample.addHint "x" =
      .ok ({ (Matrix.sample.place 4).matrix with hints := #[4] }, [.hinted 1, .removed 2]) := by
    cbv
  have hreached : Reached [.move (.eliminate 8), .hint 4] _ :=
    .move (a := .eliminate 8) (.hint (.built Matrix.built_sample) hhint rfl)
      (by decide : (Matrix.sample.place 4).matrix.isCandidateActive 3 = true)
  exact ⟨_, hreached, Reached.represents hreached⟩

end Represented

end ExactCover
