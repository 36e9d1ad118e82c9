/-
ExactCover.Proofs.Names — constraints and candidates are found by their names.

In a matrix that was built no two constraints and no two candidates have one name,
so looking a name up gives the one that has it (`Built.named`). Then lists of
constraints and candidates can be added as a whole when their names are different
from each other and new (`Built.constrainedAll`, `Built.peopledAll`), and each entry
of such a list has the number that its place in the list gives it.
-/
import ExactCover.Proofs.Building

namespace ExactCover.Matrix

variable {P : Type}

/-- What has a name is found by it, and nothing else is. -/
structure Named (m : Matrix P) : Prop where
  cells_pos : 0 < m.board.cells.size
  constraint : ∀ name c, m.constraintByName? name = some c ↔
    m.HasConstraint c ∧ m.constraintName c = name
  candidate : ∀ name r, m.candidateByName? name = some r ↔
    m.HasCandidate r ∧ m.candidateName r = name

section Lookup

variable {m : Matrix P}

theorem constraintByName?_constrained (hcells : 0 < m.board.cells.size) (name : String)
    (kind : Kind) (primary : Bool) (s : String) :
    (m.constrained name kind primary).constraintByName? s =
      (m.constraintByName? s).or (if name = s then some m.board.constraints.size else none) := by
  show (m.board.constraints.push ⟨name, kind, primary, m.board.cells.size⟩).findIdx? _ = _
  rw [Array.findIdx?_push]
  simp only [constraintByName?, bne_iff_ne.mpr (Nat.ne_of_gt hcells), Bool.true_and, beq_iff_eq]

theorem constraintByName?_peopled (name : String) (payload : P) (cs : List ConstraintId) :
    (m.peopled name payload cs).constraintByName? = m.constraintByName? := by
  funext s
  rw [constraintByName?, (peopled_frame name payload m cs).1]
  rfl

theorem candidateByName?_peopled (name : String) (payload : P) {cs : List ConstraintId}
    (hne : cs ≠ []) (s : String) :
    (m.peopled name payload cs).candidateByName? s =
      (m.candidateByName? s).or (if name = s then some m.board.candidates.size else none) := by
  rw [candidateByName?, (peopled_frame name payload m cs).1]
  have hlength : cs.length ≠ 0 := fun hzero => hne (List.length_eq_zero_iff.mp hzero)
  simp only [Array.findIdx?_push, candidateByName?, bne_iff_ne.mpr hlength, Bool.true_and,
    beq_iff_eq]

/-- A name that is new is still new after another one. -/
theorem constraintByName?_constrained_none (hcells : 0 < m.board.cells.size) {name s : String}
    (kind : Kind) (primary : Bool) (hnew : m.constraintByName? s = none) (hne : name ≠ s) :
    (m.constrained name kind primary).constraintByName? s = none := by
  rw [constraintByName?_constrained hcells, hnew, if_neg hne]
  rfl

theorem candidateByName?_peopled_none {name s : String} (payload : P) {cs : List ConstraintId}
    (hsome : cs ≠ []) (hnew : m.candidateByName? s = none) (hne : name ≠ s) :
    (m.peopled name payload cs).candidateByName? s = none := by
  rw [candidateByName?_peopled name payload hsome, hnew, if_neg hne]
  rfl

theorem constraintName_constrained (name : String) (kind : Kind) (primary : Bool)
    (d : ConstraintId) :
    (m.constrained name kind primary).constraintName d =
      if d = m.board.constraints.size then name else m.constraintName d := by
  rw [constraintName, constraint_constrained]
  split
  · rfl
  · rfl

theorem candidateName_peopled (name : String) (payload : P) (cs : List ConstraintId)
    (q : CandidateId) :
    (m.peopled name payload cs).candidateName q =
      if q = m.board.candidates.size then name else m.candidateName q := by
  rw [candidateName, candidate_peopled]
  split
  · rfl
  · rfl

/-- A look-up that has one more entry finds what it found before, or the new entry. -/
theorem or_new_eq_some {name s : String} {found : Option Nat} {new i : Nat} {known : Prop}
    (hnew : name = s → found = none) (hold : found = some i ↔ known) :
    found.or (if name = s then some new else none) = some i ↔ known ∨ (i = new ∧ name = s) := by
  rw [← hold]
  by_cases hs : name = s
  · simp [hnew hs, hs, eq_comm]
  · cases found with
    | none => simp [hs]
    | some j => simp [hs]

theorem Named.constrained (h : m.Named) (hK : 0 < m.board.constraints.size) {name : String}
    (kind : Kind) (primary : Bool) (hnew : m.constraintByName? name = none) :
    (m.constrained name kind primary).Named := by
  refine ⟨?_, fun s c => ?_, h.candidate⟩
  · show 0 < (m.board.cells.push _).size
    rw [Array.size_push]
    exact Nat.succ_pos _
  · have habsent : name = s → m.constraintByName? s = none := by
      rintro rfl
      exact hnew
    rw [constraintByName?_constrained h.cells_pos, or_new_eq_some habsent (h.constraint s c),
      hasConstraint_constrained name kind primary hK, constraintName_constrained]
    by_cases hc : c = m.board.constraints.size
    · have hold : ¬ m.HasConstraint c := fun h' => ne_of_hasConstraint h' hc
      simp [hc, hc ▸ hold]
    · simp [hc]

theorem Named.peopled (h : m.Named) (hR : 0 < m.board.candidates.size) {name : String}
    (payload : P) {cs : List ConstraintId} (hne : cs ≠ [])
    (hnew : m.candidateByName? name = none) : (m.peopled name payload cs).Named := by
  refine ⟨?_, fun s c => ?_, fun s r => ?_⟩
  · rw [(peopled_frame name payload m cs).1]
    show 0 < (m.board.cells ++ _).size
    rw [Array.size_append]
    exact Nat.add_pos_left h.cells_pos _
  · rw [constraintByName?_peopled, hasConstraint_peopled, constraintName, constraint_peopled]
    exact h.constraint s c
  · have habsent : name = s → m.candidateByName? s = none := by
      rintro rfl
      exact hnew
    rw [candidateByName?_peopled name payload hne, or_new_eq_some habsent (h.candidate s r),
      hasCandidate_peopled name payload cs hR, candidateName_peopled]
    by_cases hr : r = m.board.candidates.size
    · have hold : ¬ m.HasCandidate r := fun h' => absurd h'.2 (hr ▸ Nat.lt_irrefl _)
      simp [hr, hr ▸ hold]
    · simp [hr]

end Lookup

theorem Built.named {m : Matrix P} (h : Built m) : m.Named := by
  induction h with
  | empty =>
    refine ⟨Nat.one_pos, fun name c => ?_, fun name r => ?_⟩
    · refine iff_of_false ?_ fun h' => absurd h'.1.2 (Nat.not_lt.mpr h'.1.1)
      simp [constraintByName?, Matrix.empty, Board.empty, Constraint.root]
    · refine iff_of_false ?_ fun h' => absurd h'.1.2 (Nat.not_lt.mpr h'.1.1)
      simp [candidateByName?, Matrix.empty, Board.empty, Candidate.root]
  | @constraint m n name kind primary c hb hadd ih =>
    have hnew : m.constraintByName? name = none := by
      unfold addConstraint at hadd
      split at hadd
      · cases hadd
      · assumption
    rw [eq_constrained hadd]
    exact ih.constrained hb.fresh.constraints_pos kind primary hnew
  | @candidate m n name names payload r hb hadd ih =>
    have hnew : m.candidateByName? name = none := by
      unfold addCandidate at hadd
      split at hadd
      · cases hadd
      · assumption
    obtain ⟨cs, hne, -, -, rfl⟩ := eq_peopled hadd
    exact ih.peopled hb.fresh.candidates_pos payload hne hnew

/-! ## Lists of additions -/

/-- A constraint to be added. -/
structure NewConstraint where
  name : String
  kind : Kind
  primary : Bool

/-- A candidate to be added to the constraints of these numbers. -/
structure NewCandidate (P : Type) where
  name : String
  payload : P
  constraints : List ConstraintId

/-- The matrix with some more constraints. -/
def constrainedAll (m : Matrix P) (cs : List NewConstraint) : Matrix P :=
  cs.foldl (fun m c => m.constrained c.name c.kind c.primary) m

/-- The matrix with some more candidates. -/
def peopledAll (m : Matrix P) (rs : List (NewCandidate P)) : Matrix P :=
  rs.foldl (fun m r => m.peopled r.name r.payload r.constraints) m

section Lists

variable {m : Matrix P} {cs : List NewConstraint} {rs : List (NewCandidate P)}

theorem size_constrainedAll (m : Matrix P) (cs : List NewConstraint) :
    (m.constrainedAll cs).board.constraints.size = m.board.constraints.size + cs.length := by
  induction cs generalizing m with
  | nil => rfl
  | cons c cs ih =>
    have hone : (m.constrained c.name c.kind c.primary).board.constraints.size =
        m.board.constraints.size + 1 := Array.size_push ..
    rw [constrainedAll, List.foldl_cons, ← constrainedAll, ih, hone, List.length_cons]
    omega

theorem candidates_constrainedAll (m : Matrix P) (cs : List NewConstraint) :
    (m.constrainedAll cs).board.candidates = m.board.candidates := by
  induction cs generalizing m with
  | nil => rfl
  | cons c cs ih => exact ih _

/-- Constraints that are there keep their records. -/
theorem constraint_constrainedAll_of_lt {d : ConstraintId} (hd : d < m.board.constraints.size) :
    (m.constrainedAll cs).constraint d = m.constraint d := by
  induction cs generalizing m with
  | nil => rfl
  | cons c cs ih =>
    have hone : (m.constrained c.name c.kind c.primary).board.constraints.size =
        m.board.constraints.size + 1 := Array.size_push ..
    have hlt : d < (m.constrained c.name c.kind c.primary).board.constraints.size :=
      hone ▸ Nat.lt_succ_of_lt hd
    rw [constrainedAll, List.foldl_cons, ← constrainedAll, ih hlt, constraint_constrained,
      if_neg (Nat.ne_of_lt hd)]

/-- A new constraint has the number after as many as come before it. -/
theorem constraint_constrainedAll {i : Nat} {c : NewConstraint} (hc : cs[i]? = some c) :
    ∃ head, (m.constrainedAll cs).constraint (m.board.constraints.size + i) =
      ⟨c.name, c.kind, c.primary, head⟩ := by
  induction cs generalizing m i with
  | nil => cases hc
  | cons d cs ih =>
    have hone : (m.constrained d.name d.kind d.primary).board.constraints.size =
        m.board.constraints.size + 1 := Array.size_push ..
    rw [constrainedAll, List.foldl_cons, ← constrainedAll]
    cases i with
    | zero =>
      cases hc
      have hlt : m.board.constraints.size <
          (m.constrained c.name c.kind c.primary).board.constraints.size :=
        hone ▸ Nat.lt_succ_self _
      rw [Nat.add_zero, constraint_constrainedAll_of_lt hlt, constraint_constrained, if_pos rfl]
      exact ⟨_, rfl⟩
    | succ i =>
      have hrest := ih (m := m.constrained d.name d.kind d.primary) hc
      rw [hone] at hrest
      rwa [Nat.add_comm i 1, ← Nat.add_assoc]

theorem size_peopledAll (m : Matrix P) (rs : List (NewCandidate P)) :
    (m.peopledAll rs).board.candidates.size = m.board.candidates.size + rs.length := by
  induction rs generalizing m with
  | nil => rfl
  | cons r rs ih =>
    rw [peopledAll, List.foldl_cons, ← peopledAll, ih, size_candidates_peopled, List.length_cons]
    omega

theorem constraints_peopledAll (m : Matrix P) (rs : List (NewCandidate P)) :
    (m.peopledAll rs).board.constraints = m.board.constraints := by
  induction rs generalizing m with
  | nil => rfl
  | cons r rs ih =>
    rw [peopledAll, List.foldl_cons, ← peopledAll, ih, (peopled_frame _ _ m _).1]

/-- The constraints that a new candidate has can have it. -/
structure NewCandidate.FitFor (m : Matrix P) (r : NewCandidate P) : Prop where
  some : r.constraints ≠ []
  known : ∀ c ∈ r.constraints, m.HasConstraint c
  ascending : r.constraints.Pairwise (· < ·)

instance (m : Matrix P) (c : ConstraintId) : Decidable (m.HasConstraint c) :=
  inferInstanceAs (Decidable (0 < c ∧ c < m.board.constraints.size))

instance (m : Matrix P) (r : NewCandidate P) : Decidable (r.FitFor m) :=
  decidable_of_iff (r.constraints ≠ [] ∧ (∀ c ∈ r.constraints, m.HasConstraint c) ∧
    r.constraints.Pairwise (· < ·)) ⟨fun h => ⟨h.1, h.2.1, h.2.2⟩, fun h => ⟨h.1, h.2, h.3⟩⟩

theorem NewCandidate.FitFor.of_peopled {r q : NewCandidate P} (h : q.FitFor m) :
    q.FitFor (m.peopled r.name r.payload r.constraints) := by
  refine ⟨h.some, ?_, h.ascending⟩
  rw [hasConstraint_peopled]
  exact h.known

/-- Candidates that are there keep their records and their constraints. -/
theorem candidate_peopledAll_of_lt (hm : m.Fresh) (hrs : ∀ r ∈ rs, r.FitFor m) {q : CandidateId}
    (hq : q < m.board.candidates.size) :
    (m.peopledAll rs).candidate q = m.candidate q ∧ (m.peopledAll rs).Hits q = m.Hits q := by
  induction rs generalizing m with
  | nil => exact ⟨rfl, rfl⟩
  | cons r rs ih =>
    have hr := hrs r List.mem_cons_self
    have hlt : q < (m.peopled r.name r.payload r.constraints).board.candidates.size :=
      size_candidates_peopled r.name r.payload r.constraints ▸ Nat.lt_succ_of_lt hq
    have hrest := ih (hm.peopled r.name r.payload r.constraints hr.some hr.known hr.ascending)
      (fun q hq => (hrs q (List.mem_cons_of_mem r hq)).of_peopled) hlt
    rw [peopledAll, List.foldl_cons, ← peopledAll, hrest.1, hrest.2, candidate_peopled,
      if_neg (Nat.ne_of_lt hq)]
    refine ⟨rfl, ?_⟩
    funext c
    rw [hm.laid.hits_peopled, if_neg (Nat.ne_of_lt hq)]

/-- A new candidate has the number after as many as come before it, and its own constraints. -/
theorem candidate_peopledAll (hm : m.Fresh) (hrs : ∀ r ∈ rs, r.FitFor m) {i : Nat}
    {r : NewCandidate P} (hr : rs[i]? = some r) :
    (m.peopledAll rs).candidateName (m.board.candidates.size + i) = r.name ∧
      (m.peopledAll rs).payload (m.board.candidates.size + i) = some r.payload ∧
      ∀ c, (m.peopledAll rs).Hits (m.board.candidates.size + i) c ↔ c ∈ r.constraints := by
  induction rs generalizing m i with
  | nil => cases hr
  | cons q rs ih =>
    have hq := hrs q List.mem_cons_self
    have hnext := hm.peopled q.name q.payload q.constraints hq.some hq.known hq.ascending
    have hfit : ∀ p ∈ rs, p.FitFor (m.peopled q.name q.payload q.constraints) :=
      fun p hp => (hrs p (List.mem_cons_of_mem q hp)).of_peopled
    rw [peopledAll, List.foldl_cons, ← peopledAll]
    cases i with
    | zero =>
      cases hr
      have hlt : m.board.candidates.size <
          (m.peopled r.name r.payload r.constraints).board.candidates.size :=
        size_candidates_peopled r.name r.payload r.constraints ▸ Nat.lt_succ_self _
      obtain ⟨hrecord, hhits⟩ := candidate_peopledAll_of_lt hnext hfit hlt
      rw [Nat.add_zero, candidateName, payload, hrecord, hhits, candidate_peopled, if_pos rfl]
      refine ⟨rfl, rfl, fun c => ?_⟩
      rw [hm.laid.hits_peopled, if_pos rfl]
    | succ i =>
      have hrest := ih hnext hfit hr
      rw [size_candidates_peopled] at hrest
      rwa [Nat.add_comm i 1, ← Nat.add_assoc]

end Lists

/-- Constraints with names that are new and different from each other can be added. -/
theorem Built.constrainedAll {m : Matrix P} (h : m.Built) {cs : List NewConstraint}
    (hnodup : (cs.map (·.name)).Nodup) (hnew : ∀ c ∈ cs, m.constraintByName? c.name = none) :
    (m.constrainedAll cs).Built := by
  induction cs generalizing m with
  | nil => exact h
  | cons c cs ih =>
    obtain ⟨hfirst, hrest⟩ := List.nodup_cons.mp hnodup
    refine ih (h.with_constraint c.name c.kind c.primary (hnew c List.mem_cons_self)) hrest
      fun d hd => ?_
    have hne : c.name ≠ d.name := fun heq => hfirst (List.mem_map.mpr ⟨d, hd, heq.symm⟩)
    exact constraintByName?_constrained_none h.named.cells_pos c.kind c.primary
      (hnew d (List.mem_cons_of_mem c hd)) hne

/-- The numbers of constraints are those that their names resolve to. -/
theorem Named.map_constraintByName? {m : Matrix P} (h : m.Named) {cs : List ConstraintId}
    (hcs : ∀ c ∈ cs, m.HasConstraint c) :
    (cs.map m.constraintName).map m.constraintByName? = cs.map some := by
  rw [List.map_map]
  exact List.map_congr_left fun c hc => (h.constraint _ c).mpr ⟨hcs c hc, rfl⟩

/-- Candidates with names that are new and different from each other can be added to constraints
that are there. -/
theorem Built.peopledAll {m : Matrix P} (h : m.Built) {rs : List (NewCandidate P)}
    (hnodup : (rs.map (·.name)).Nodup) (hnew : ∀ r ∈ rs, m.candidateByName? r.name = none)
    (hfit : ∀ r ∈ rs, r.FitFor m) : (m.peopledAll rs).Built := by
  induction rs generalizing m with
  | nil => exact h
  | cons r rs ih =>
    obtain ⟨hfirst, hrest⟩ := List.nodup_cons.mp hnodup
    have hr := hfit r List.mem_cons_self
    refine ih (h.with_candidate r.name (r.constraints.map m.constraintName) r.payload r.constraints
      (hnew r List.mem_cons_self) (h.named.map_constraintByName? hr.known) hr.some hr.ascending)
      hrest (fun q hq => ?_) fun q hq => (hfit q (List.mem_cons_of_mem r hq)).of_peopled
    have hne : r.name ≠ q.name := fun heq => hfirst (List.mem_map.mpr ⟨q, hq, heq.symm⟩)
    exact candidateByName?_peopled_none r.payload hr.some (hnew q (List.mem_cons_of_mem r hq)) hne

end ExactCover.Matrix
