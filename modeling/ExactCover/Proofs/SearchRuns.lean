/-
ExactCover.Proofs.SearchRuns — what a search does to its matrix and what it shows.

A search hands back the matrix it was given, whatever its visitor and its limits
are and however it ends (`descend_matrix`, `search_matrix`). So all that is left to
say is what it shows. `visits` lists that as a function of the matrix and the
ceilings alone, by the same recursion, as if nobody ever put an end to the search.
`play` goes through such a list until the visitor breaks off or the last solution
that is asked for has been reported. Every search is a play of its visits
(`descend_plays`, `search_plays`), and the statistics have no part in it. A visitor
that never breaks off, in a search without a limit on solutions, sees all of them
(`search_shows`).

`showings` lists what a search has shown, with the answers of its visitor. A visitor
that keeps this list besides changes nothing (`search_recorded`), and the list is that
part of the visits that is played (`showings_eq_played`).
-/
import Mathlib.Data.List.MinMax
import ExactCover.Search.Descent
import ExactCover.Proofs.Representation

namespace ExactCover

/-- Something a visitor is shown. -/
inductive Sight (P : Type) where
  /-- A cell chosen at a level. -/
  | choice (level : Nat) (h : CellId) (m : Matrix P)
  /-- A matrix that holds a solution. -/
  | solution (m : Matrix P)

/-- The matrix that is shown. -/
def Sight.matrix {P : Type} : Sight P → Matrix P
  | choice _ _ m | solution m => m

/-- The candidates on the solution stack, where a sight is of a solution. -/
def Sight.solved? {P : Type} : Sight P → Option (List CandidateId)
  | choice .. => none
  | solution m => some (m.solution.toList.map m.candidateOf)

namespace Visitor

variable {P σ : Type}

/-- What a visitor makes of a sight. -/
def see (v : Visitor P σ) (s : σ) : Sight P → σ
  | .choice level h m => v.onTry s level h m
  | .solution m => (v.onSolution s m).1

/-- The visitor never breaks off. -/
def Persistent (v : Visitor P σ) : Prop := ∀ s m, (v.onSolution s m).2 = true

/-- The same visitor, keeping besides what it is shown, in order, each time with its answer whether
to go on. It always goes on after a choice. -/
def recorded (v : Visitor P σ) : Visitor P (σ × List (Sight P × Bool)) where
  onTry := fun (state, kept) level h m =>
    (v.onTry state level h m, kept ++ [(.choice level h m, true)])
  onSolution := fun (state, kept) m =>
    match v.onSolution state m with
    | (state, goOn) => ((state, kept ++ [(.solution m, goOn)]), goOn)

theorem recorded_onSolution (v : Visitor P σ) (state : σ) (kept : List (Sight P × Bool))
    (m : Matrix P) :
    v.recorded.onSolution (state, kept) m =
      (((v.onSolution state m).1, kept ++ [(.solution m, (v.onSolution state m).2)]),
        (v.onSolution state m).2) := rfl

end Visitor

namespace Search

variable {P σ : Type}

/-! ## The choice of a constraint -/

theorem chooseConstraint_eq_argmin (m : Matrix P) :
    chooseConstraint m = m.activeConstraints.argmin m.len := by
  have hfold : ∀ (cs : List ConstraintId) (best : Option ConstraintId),
      (cs.foldl (shorter m) (best.map fun c => (c, m.len c))).map (·.1) =
        cs.foldl (List.argAux fun b c => m.len b < m.len c) best := by
    intro cs
    induction cs with
    | nil => intro best; cases best <;> rfl
    | cons c cs ih =>
      intro best
      rw [List.foldl_cons, List.foldl_cons, ← ih]
      congr 2
      cases best with
      | none => rfl
      | some b =>
        by_cases hlt : m.len c < m.len b
        · simp [shorter, List.argAux, hlt]
        · simp [shorter, List.argAux, hlt]
  exact hfold m.activeConstraints none

theorem chooseConstraint_none {m : Matrix P} (h : chooseConstraint m = none) :
    m.activeConstraints = [] := by
  rw [chooseConstraint_eq_argmin] at h
  exact List.argmin_eq_none.mp h

theorem chooseConstraint_mem {m : Matrix P} {c : ConstraintId} (h : chooseConstraint m = some c) :
    c ∈ m.activeConstraints := by
  rw [chooseConstraint_eq_argmin] at h
  exact List.argmin_mem h

/-! ## Down and up again -/

/-- The state of a descent when a constraint has been covered. -/
def covering (level : Nat) (c : ConstraintId) (d : Descent P σ) : Descent P σ :=
  { d with
    matrix := (d.matrix.cover c).matrix
    stats := d.stats.recordUpdates level (d.matrix.cover c).updates }

/-- The state of a descent when a cell of the covered constraint has been chosen. -/
def choosing (v : Visitor P σ) (level : Nat) (h : CellId) (d : Descent P σ) : Descent P σ :=
  let m := (d.matrix.coverRow h).matrix.pushSolution h
  { d with
    matrix := m
    stats := d.stats.recordUpdates level (d.matrix.coverRow h).updates
    state := v.onTry d.state level h m }

theorem underCover_eq (level : Nat) (c : ConstraintId)
    (inner : Descent P σ → Descent P σ × Ending) (d : Descent P σ) :
    underCover level c inner d =
      ({ (inner (covering level c d)).1 with
          matrix := ((inner (covering level c d)).1.matrix.uncover c).matrix },
        (inner (covering level c d)).2) := rfl

theorem underChoice_eq (v : Visitor P σ) (level : Nat) (h : CellId)
    (inner : Descent P σ → Descent P σ × Ending) (d : Descent P σ) :
    underChoice v level h inner d =
      ({ (inner (choosing v level h d)).1 with
          matrix := ((inner (choosing v level h d)).1.matrix.popSolution.uncoverRow h).matrix },
        (inner (choosing v level h d)).2) := rfl

/-! ## The matrix is handed back -/

/-- A search that hands back the matrix it was given, if that is `m`. -/
def HandsBack (m : Matrix P) (inner : Descent P σ → Descent P σ × Ending) : Prop :=
  ∀ d, d.matrix = m → (inner d).1.matrix = m

section HandedBack

variable {m : Matrix P} (level : Nat) {h : CellId} {c : ConstraintId} (v : Visitor P σ)
  {inner : Descent P σ → Descent P σ × Ending}

theorem underCover_matrix (hm : m.Coherent) (hc : m.HasConstraint c)
    (hu : m.isCovered c = false) (hi : HandsBack (m.cover c).matrix inner) :
    HandsBack m (underCover level c inner) := by
  rintro d rfl
  have hback := hi (covering level c d) rfl
  have hundo := hm.uncover_cover hc hu
  rw [underCover_eq, hback, hundo]

theorem underChoice_matrix (hm : m.Coherent) (hh : Matrix.Coherent.OthersOpen m h)
    (hi : HandsBack ((m.coverRow h).matrix.pushSolution h) inner) :
    HandsBack m (underChoice v level h inner) := by
  rintro d rfl
  have hback := hi (choosing v level h d) rfl
  have hundo := hm.uncoverRow_coverRow hh
  rw [underChoice_eq, hback, Matrix.popSolution_pushSolution, hundo]

theorem tryRows_matrix (hm : m.Coherent) {rows : List CellId}
    (hrows : ∀ h ∈ rows, Matrix.Coherent.OthersOpen m h)
    (hi : ∀ h ∈ rows, HandsBack ((m.coverRow h).matrix.pushSolution h) inner) :
    HandsBack m (tryRows v level inner rows) := by
  induction rows with
  | nil => exact fun _ hd => hd
  | cons h rows ih =>
    intro d hd
    have hone := underChoice_matrix level v hm (hrows h List.mem_cons_self)
      (hi h List.mem_cons_self) d hd
    have hrest := ih (fun k hk => hrows k (List.mem_cons_of_mem h hk))
      (fun k hk => hi k (List.mem_cons_of_mem h hk))
    unfold tryRows
    split
    · next d' heq =>
      rw [heq] at hone
      exact hrest d' hone
    · next d' e _ heq =>
      rw [heq] at hone
      exact hone

end HandedBack

/-- The rows of a constraint that has just been covered can be chosen. -/
theorem othersOpen_column {m : Matrix P} {c : ConstraintId} (hm : m.Coherent)
    (hc : m.HasConstraint c) (hu : m.isCovered c = false) {h : CellId} (hh : h ∈ m.column c) :
    m.isCandidateActive (m.candidateOf h) = true ∧ m.constraintOf h = c ∧
      Matrix.Coherent.OthersOpen (m.cover c).matrix h := by
  obtain ⟨rfl, ha⟩ := (hm.mem_column_iff hc hu).mp hh
  exact ⟨ha, rfl, hm.othersOpen_cover ha⟩

/-- The matrix in which a descent goes on after a choice. -/
def chosen (m : Matrix P) (h : CellId) : Matrix P := (m.place h).matrix.pushSolution h

/-- The matrix that is searched below a choice. -/
theorem chosen_eq {m : Matrix P} {c : ConstraintId} {h : CellId} (hhc : m.constraintOf h = c) :
    ((m.cover c).matrix.coverRow h).matrix.pushSolution h = chosen m h := by
  subst hhc
  rfl

theorem coherent_chosen {m : Matrix P} {h : CellId} (hm : m.Coherent)
    (ha : m.isCandidateActive (m.candidateOf h) = true) : (chosen m h).Coherent :=
  (hm.place ha).of_links rfl rfl

/-- A search below the rows of an open constraint hands back its matrix. -/
theorem underRows_matrix {m : Matrix P} {c : ConstraintId} (level : Nat) (v : Visitor P σ)
    {inner : Descent P σ → Descent P σ × Ending} (hm : m.Coherent) (hc : m.HasConstraint c)
    (hu : m.isCovered c = false) (hi : ∀ h ∈ m.column c, HandsBack (chosen m h) inner) :
    HandsBack m (underCover level c fun d => tryRows v level inner (d.matrix.column c) d) := by
  refine underCover_matrix level hm hc hu ?_
  intro d hd
  dsimp only
  rw [hd, hm.column_cover hc hu]
  refine tryRows_matrix level v (hm.cover hc hu) ?_ ?_ d hd
  · intro h hh
    exact (othersOpen_column hm hc hu hh).2.2
  · intro h hh
    rw [chosen_eq (othersOpen_column hm hc hu hh).2.1]
    exact hi h hh

/-- A descent hands back the matrix it was given, however it ends. -/
theorem descend_matrix (limits : SearchLimits) (v : Visitor P σ) :
    ∀ (remaining level : Nat) (m : Matrix P), m.Coherent →
      HandsBack m (descend limits v remaining level) := by
  intro remaining
  induction remaining using Nat.strongRecOn with
  | ind remaining ih =>
    intro level m hm ⟨m', stats, found, state⟩ hd
    obtain rfl : m' = m := hd
    unfold descend
    dsimp only
    split
    · rfl
    · next c hchoose =>
      obtain ⟨hc, -, hu⟩ := hm.mem_activeConstraints.mp (chooseConstraint_mem hchoose)
      split
      · rfl
      · cases remaining with
        | zero => rfl
        | succ remaining =>
          dsimp only
          split
          · rfl
          · refine underRows_matrix level v hm hc hu ?_ _ rfl
            intro h hh
            exact ih remaining (Nat.lt_succ_self _) (level + 1) (chosen m' h)
              (coherent_chosen hm (othersOpen_column hm hc hu hh).1)

theorem search_matrix (limits : SearchLimits) (v : Visitor P σ) {m : Matrix P} (hm : m.Coherent)
    (stats : Statistics) (state : σ) : (search limits v m stats state).1.matrix = m := by
  unfold search
  split
  · rfl
  · exact descend_matrix limits v limits.maxDepth 0 m hm _ rfl

/-! ## What is shown -/

/-- The sights below a node where one cell after another is chosen. -/
def visitRows (level : Nat) (inner : Matrix P → List (Sight P) × Ending) (m : Matrix P) :
    List CellId → List (Sight P) × Ending
  | [] => ([], .exhausted)
  | h :: rest =>
    let n := (m.coverRow h).matrix.pushSolution h
    match inner n with
    | (seen, .exhausted) =>
      match visitRows level inner m rest with
      | (more, ending) => (.choice level h n :: seen ++ more, ending)
    | (seen, ending) => (.choice level h n :: seen, ending)

/-- The sights below a node at `level`, with `remaining` more levels allowed, and how they end. -/
def visits (limits : SearchLimits) : Nat → Nat → Matrix P → List (Sight P) × Ending
  | remaining, level, m =>
    match chooseConstraint m with
    | none => ([.solution m], .exhausted)
    | some c =>
      if m.len c = 0 then ([], .exhausted)
      else match remaining with
        | 0 => ([], .failed (.depthLimit limits.maxDepth))
        | remaining + 1 =>
          if m.len c > limits.maxBranching then
            ([], .failed (.branchLimit level (m.len c) limits.maxBranching))
          else
            visitRows level (visits limits remaining (level + 1)) (m.cover c).matrix (m.column c)

/-- How many solutions a search has reported, and the state of its visitor. -/
abbrev Standing (σ : Type) := Nat × σ

/-- Whether a search goes on after as many solutions as have been reported. -/
def goesOn (limits : SearchLimits) (found : Nat) : Bool :=
  match limits.maxSolutions with
  | none => true
  | some most => found < most

/-- Goes through sights until a solution puts an end to it. Answers whether none did. -/
def play (limits : SearchLimits) (v : Visitor P σ) :
    List (Sight P) → Standing σ → Standing σ × Bool
  | [], s => (s, true)
  | .choice level h m :: rest, (found, s) => play limits v rest (found, v.onTry s level h m)
  | .solution m :: rest, (found, s) =>
    match v.onSolution s m with
    | (s, more) =>
      if more && goesOn limits (found + 1) then play limits v rest (found + 1, s)
      else ((found + 1, s), false)

/-- What is played stops in the first part, or the second part is played from where it got to. -/
theorem play_append (limits : SearchLimits) (v : Visitor P σ) (xs ys : List (Sight P))
    (s : Standing σ) :
    play limits v (xs ++ ys) s =
      if (play limits v xs s).2 then play limits v ys (play limits v xs s).1
      else play limits v xs s := by
  induction xs generalizing s with
  | nil => rfl
  | cons x xs ih =>
    cases x with
    | choice level h m => exact ih _
    | solution m =>
      by_cases hmore : ((v.onSolution s.2 m).2 && goesOn limits (s.1 + 1)) = true
      · simp only [List.cons_append, play, hmore, if_true, ih]
      · simp only [List.cons_append, play, hmore, Bool.false_eq_true, if_false]

/-- A visitor that never breaks off sees all there is when the number of solutions has no limit. -/
theorem play_persistent {limits : SearchLimits} (hlimit : limits.maxSolutions = none)
    {v : Visitor P σ} (hv : v.Persistent) (seen : List (Sight P)) (s : Standing σ) :
    (play limits v seen s).1.2 = seen.foldl v.see s.2 ∧ (play limits v seen s).2 = true := by
  induction seen generalizing s with
  | nil => exact ⟨rfl, rfl⟩
  | cons x seen ih =>
    cases x with
    | choice level h m => exact ih _
    | solution m =>
      have hmore : goesOn limits (s.1 + 1) = true := by simp [goesOn, hlimit]
      simp only [play, hv s.2 m, hmore, Bool.and_self, if_true]
      exact ih _

/-- What a search has come to. -/
def Descent.standing (d : Descent P σ) : Standing σ := (d.found, d.state)

/-- How a search ends that plays a list of sights with this ending. -/
def endingAfter (goneThrough : Bool) (ending : Ending) : Ending :=
  if goneThrough then ending else .stopped

@[simp] theorem endingAfter_true (ending : Ending) : endingAfter true ending = ending := rfl

@[simp] theorem endingAfter_false (ending : Ending) : endingAfter false ending = .stopped := rfl

/-- A search from `m` plays these sights and ends like this unless it is stopped. -/
def Plays (limits : SearchLimits) (v : Visitor P σ) (m : Matrix P)
    (inner : Descent P σ → Descent P σ × Ending) (out : List (Sight P) × Ending) : Prop :=
  ∀ d, d.matrix = m →
    Descent.standing (inner d).1 = (play limits v out.1 (Descent.standing d)).1 ∧
      (inner d).2 = endingAfter (play limits v out.1 (Descent.standing d)).2 out.2

section Played

variable {m : Matrix P} (level : Nat) {limits : SearchLimits} {v : Visitor P σ}
  {inner : Descent P σ → Descent P σ × Ending} {sights : Matrix P → List (Sight P) × Ending}

theorem underChoice_plays {h : CellId}
    (hi : Plays limits v ((m.coverRow h).matrix.pushSolution h) inner
      (sights ((m.coverRow h).matrix.pushSolution h))) :
    Plays limits v m (underChoice v level h inner)
      (.choice level h ((m.coverRow h).matrix.pushSolution h) ::
        (sights ((m.coverRow h).matrix.pushSolution h)).1,
        (sights ((m.coverRow h).matrix.pushSolution h)).2) := by
  rintro d rfl
  exact hi (choosing v level h d) rfl

theorem tryRows_plays (hm : m.Coherent) {rows : List CellId}
    (hrows : ∀ h ∈ rows, Matrix.Coherent.OthersOpen m h)
    (hback : ∀ h ∈ rows, HandsBack ((m.coverRow h).matrix.pushSolution h) inner)
    (hi : ∀ h ∈ rows, Plays limits v ((m.coverRow h).matrix.pushSolution h) inner
      (sights ((m.coverRow h).matrix.pushSolution h))) :
    Plays limits v m (tryRows v level inner rows) (visitRows level sights m rows) := by
  induction rows with
  | nil => exact fun d _ => ⟨rfl, rfl⟩
  | cons h rows ih =>
    intro d hd
    obtain ⟨hstanding, hending⟩ :=
      underChoice_plays level (hi h List.mem_cons_self) d hd
    have hmatrix := underChoice_matrix level v hm (hrows h List.mem_cons_self)
      (hback h List.mem_cons_self) d hd
    have hrest := ih (fun k hk => hrows k (List.mem_cons_of_mem h hk))
      (fun k hk => hback k (List.mem_cons_of_mem h hk))
      (fun k hk => hi k (List.mem_cons_of_mem h hk))
    unfold tryRows visitRows
    dsimp only
    generalize hfirst : underChoice v level h inner d = first at hstanding hending hmatrix
    obtain ⟨d', ending⟩ := first
    generalize hsights : sights ((m.coverRow h).matrix.pushSolution h) = below at hstanding hending
    obtain ⟨seen, last⟩ := below
    dsimp only at hstanding hending
    -- a visitor that breaks off below keeps the other rows from being tried, as a failure does
    cases hgone : (play limits v (.choice level h ((m.coverRow h).matrix.pushSolution h) :: seen)
        (Descent.standing d)).2 with
    | false =>
      rw [hgone, endingAfter_false] at hending
      subst hending
      cases last with
      | exhausted =>
        dsimp only
        rw [play_append, hgone, if_neg Bool.false_ne_true, hgone]
        exact ⟨hstanding, rfl⟩
      | stopped => exact ⟨hstanding, by rw [hgone]; rfl⟩
      | failed e => exact ⟨hstanding, by rw [hgone]; rfl⟩
    | true =>
      rw [hgone, endingAfter_true] at hending
      subst hending
      cases ending with
      | exhausted =>
        dsimp only
        rw [play_append, hgone, if_pos rfl, ← hstanding]
        exact hrest d' hmatrix
      | stopped => exact ⟨hstanding, by rw [hgone]; rfl⟩
      | failed e => exact ⟨hstanding, by rw [hgone]; rfl⟩

end Played

/-- Below the rows of an open constraint a search plays what it plays below each of them. -/
theorem underRows_plays {m : Matrix P} {c : ConstraintId} (level : Nat) {limits : SearchLimits}
    {v : Visitor P σ} {inner : Descent P σ → Descent P σ × Ending}
    {sights : Matrix P → List (Sight P) × Ending} (hm : m.Coherent) (hc : m.HasConstraint c)
    (hu : m.isCovered c = false) (hback : ∀ h ∈ m.column c, HandsBack (chosen m h) inner)
    (hi : ∀ h ∈ m.column c, Plays limits v (chosen m h) inner (sights (chosen m h))) :
    Plays limits v m (underCover level c fun d => tryRows v level inner (d.matrix.column c) d)
      (visitRows level sights (m.cover c).matrix (m.column c)) := by
  intro d hd
  subst hd
  have hrows : Plays limits v (d.matrix.cover c).matrix
      (tryRows v level inner (d.matrix.column c))
      (visitRows level sights (d.matrix.cover c).matrix (d.matrix.column c)) :=
    tryRows_plays level (hm.cover hc hu) (fun h hh => (othersOpen_column hm hc hu hh).2.2)
      (fun h hh => by
        rw [chosen_eq (othersOpen_column hm hc hu hh).2.1]
        exact hback h hh)
      (fun h hh => by
        rw [chosen_eq (othersOpen_column hm hc hu hh).2.1]
        exact hi h hh)
  have hrun := hrows (covering level c d) rfl
  rw [underCover_eq]
  rw [← hm.column_cover hc hu] at hrun ⊢
  exact hrun

theorem report_plays (limits : SearchLimits) (v : Visitor P σ) (m : Matrix P) :
    Plays limits v m (report limits v) ([.solution m], .exhausted) := by
  rintro d rfl
  by_cases hmore : ((v.onSolution d.state d.matrix).2 && goesOn limits (d.found + 1)) = true
  · simp only [play, Descent.standing, hmore, if_true]
    exact ⟨rfl, if_pos hmore⟩
  · simp only [play, Descent.standing, hmore, Bool.false_eq_true, if_false]
    exact ⟨rfl, if_neg hmore⟩

/-- A descent plays what `visits` lists, and ends as it says unless it is stopped. -/
theorem descend_plays (limits : SearchLimits) (v : Visitor P σ) :
    ∀ (remaining level : Nat) (m : Matrix P), m.Coherent →
      Plays limits v m (descend limits v remaining level) (visits limits remaining level m) := by
  intro remaining
  induction remaining using Nat.strongRecOn with
  | ind remaining ih =>
    intro level m hm ⟨m', stats, found, state⟩ hd
    obtain rfl : m' = m := hd
    unfold descend visits
    cases hchoose : chooseConstraint m' with
    | none => exact report_plays limits v m' ⟨m', _, found, state⟩ rfl
    | some c =>
      dsimp only
      by_cases hzero : m'.len c = 0
      · rw [if_pos hzero, if_pos hzero]
        exact ⟨rfl, rfl⟩
      rw [if_neg hzero, if_neg hzero]
      cases remaining with
      | zero => exact ⟨rfl, rfl⟩
      | succ remaining =>
        dsimp only
        by_cases hwide : m'.len c > limits.maxBranching
        · rw [if_pos hwide, if_pos hwide]
          exact ⟨rfl, rfl⟩
        rw [if_neg hwide, if_neg hwide]
        obtain ⟨hc, -, hu⟩ := hm.mem_activeConstraints.mp (chooseConstraint_mem hchoose)
        have hbelow : ∀ h ∈ m'.column c, (chosen m' h).Coherent := fun h hh =>
          coherent_chosen hm (othersOpen_column hm hc hu hh).1
        exact underRows_plays level hm hc hu
          (fun h hh => descend_matrix limits v remaining _ _ (hbelow h hh))
          (fun h hh => ih remaining (Nat.lt_succ_self _) (level + 1) _ (hbelow h hh)) _ rfl

/-- All that a search shows is a play of what the matrix and the ceilings alone say it would show,
and it ends as they say unless its visitor or the number of solutions puts an end to it. -/
theorem search_plays (limits : SearchLimits) (v : Visitor P σ) {m : Matrix P} (hm : m.Coherent)
    (hsome : 0 < m.constraintCount) (stats : Statistics) (state : σ) :
    Descent.standing (search limits v m stats state).1 =
        (play limits v (visits limits limits.maxDepth 0 m).1 (0, state)).1 ∧
      (search limits v m stats state).2 =
        endingAfter (play limits v (visits limits limits.maxDepth 0 m).1 (0, state)).2
          (visits limits limits.maxDepth 0 m).2 := by
  unfold search
  rw [if_neg (Nat.ne_of_gt hsome)]
  exact descend_plays limits v limits.maxDepth 0 m hm ⟨m, stats, 0, state⟩ rfl

/-- All that a search without a limit on solutions shows, and how it ends, is a matter of the
matrix and the limits alone. -/
theorem search_shows {limits : SearchLimits} (hlimit : limits.maxSolutions = none)
    {v : Visitor P σ} (hv : v.Persistent) {m : Matrix P} (hm : m.Coherent)
    (hsome : 0 < m.constraintCount) (stats : Statistics) (state : σ) :
    (search limits v m stats state).1.state =
        (visits limits limits.maxDepth 0 m).1.foldl v.see state ∧
      (search limits v m stats state).2 = (visits limits limits.maxDepth 0 m).2 := by
  obtain ⟨hstanding, hending⟩ := search_plays limits v hm hsome stats state
  obtain ⟨hstate, hgone⟩ :=
    play_persistent hlimit hv (visits limits limits.maxDepth 0 m).1 (0, state)
  rw [hgone] at hending
  exact ⟨(congrArg (·.2) hstanding).trans hstate, hending⟩

/-! ## What has been shown -/

/-- The sights that are played before something puts an end to it, with the answers. -/
def played (limits : SearchLimits) (v : Visitor P σ) :
    List (Sight P) → Standing σ → List (Sight P × Bool)
  | [], _ => []
  | .choice level h m :: rest, (found, s) =>
    (.choice level h m, true) :: played limits v rest (found, v.onTry s level h m)
  | .solution m :: rest, (found, s) =>
    match v.onSolution s m with
    | (s, more) =>
      (.solution m, more) ::
        if more && goesOn limits (found + 1) then played limits v rest (found + 1, s) else []

theorem played_isPrefix (limits : SearchLimits) (v : Visitor P σ) (sights : List (Sight P))
    (s : Standing σ) : (played limits v sights s).map (·.1) <+: sights := by
  induction sights generalizing s with
  | nil => exact List.prefix_refl []
  | cons sight sights ih =>
    cases sight with
    | choice level h m => exact List.cons_prefix_cons.mpr ⟨rfl, ih _⟩
    | solution m =>
      refine List.cons_prefix_cons.mpr ⟨rfl, ?_⟩
      split
      · exact ih _
      · exact List.nil_prefix

/-- A visitor that never breaks off answers accordingly. -/
theorem played_persistent {limits : SearchLimits} {v : Visitor P σ} (hv : v.Persistent)
    (sights : List (Sight P)) (s : Standing σ) :
    ∀ showing ∈ played limits v sights s, showing.2 = true := by
  induction sights generalizing s with
  | nil => exact fun _ h => absurd h List.not_mem_nil
  | cons sight sights ih =>
    cases sight with
    | choice level h m => exact List.forall_mem_cons.mpr ⟨rfl, ih _⟩
    | solution m =>
      refine List.forall_mem_cons.mpr ⟨hv s.2 m, ?_⟩
      split
      · exact ih _
      · exact fun _ h => absurd h List.not_mem_nil

/-- To keep what is shown changes nothing for the visitor, and all that is played is kept. -/
theorem play_recorded (limits : SearchLimits) (v : Visitor P σ) (sights : List (Sight P))
    (found : Nat) (state : σ) (kept : List (Sight P × Bool)) :
    play limits v.recorded sights (found, state, kept) =
      (((play limits v sights (found, state)).1.1, (play limits v sights (found, state)).1.2,
        kept ++ played limits v sights (found, state)),
        (play limits v sights (found, state)).2) := by
  induction sights generalizing found state kept with
  | nil => simp [play, played]
  | cons sight sights ih =>
    cases sight with
    | choice level h m =>
      have hrest := ih found (v.onTry state level h m) (kept ++ [(.choice level h m, true)])
      rw [List.append_assoc] at hrest
      exact hrest
    | solution m =>
      have hrest := ih (found + 1) (v.onSolution state m).1
        (kept ++ [(.solution m, (v.onSolution state m).2)])
      rw [List.append_assoc] at hrest
      simp only [play, played, Visitor.recorded_onSolution]
      by_cases hmore : ((v.onSolution state m).2 && goesOn limits (found + 1)) = true
      · simp only [hmore, if_true]
        exact hrest
      · simp only [hmore, Bool.false_eq_true, if_false]

/-- What a search shows to its visitor, with the answers. -/
def showings (limits : SearchLimits) (v : Visitor P σ) (m : Matrix P) (stats : Statistics)
    (state : σ) : List (Sight P × Bool) :=
  (search limits v.recorded m stats (state, [])).1.state.2

section Showings

variable (limits : SearchLimits) (v : Visitor P σ) {m : Matrix P} (stats : Statistics) (state : σ)

theorem showings_of_none (hnone : m.constraintCount = 0) :
    showings limits v m stats state = [] := by
  rw [showings, search, if_pos hnone]

theorem showings_eq_played (hm : m.Coherent) (hsome : 0 < m.constraintCount) :
    showings limits v m stats state =
      played limits v (visits limits limits.maxDepth 0 m).1 (0, state) := by
  have hstanding := (search_plays limits v.recorded hm hsome stats (state, [])).1
  rw [play_recorded] at hstanding
  exact congrArg (·.2.2) hstanding

/-- A search comes to the same, whether what it shows is kept or not. -/
theorem search_recorded (hm : m.Coherent) :
    (search limits v.recorded m stats (state, [])).2 = (search limits v m stats state).2 ∧
      (search limits v.recorded m stats (state, [])).1.state.1 =
        (search limits v m stats state).1.state := by
  rcases Nat.eq_zero_or_pos m.constraintCount with hnone | hsome
  · simp only [search, hnone, if_true, and_self]
  · obtain ⟨hstanding, hending⟩ := search_plays limits v hm hsome stats state
    obtain ⟨hstanding', hending'⟩ := search_plays limits v.recorded hm hsome stats (state, [])
    rw [play_recorded] at hstanding' hending'
    exact ⟨hending'.trans hending.symm,
      (congrArg (·.2.1) hstanding').trans (congrArg (·.2) hstanding).symm⟩

/-- A search shows its visits and nothing else. -/
theorem mem_visits_of_showings (hm : m.Coherent) {showing : Sight P × Bool}
    (hs : showing ∈ showings limits v m stats state) :
    showing.1 ∈ (visits limits limits.maxDepth 0 m).1 := by
  rcases Nat.eq_zero_or_pos m.constraintCount with hnone | hsome
  · rw [showings_of_none limits v stats state hnone] at hs
    exact absurd hs List.not_mem_nil
  · rw [showings_eq_played limits v stats state hm hsome] at hs
    exact (played_isPrefix limits v _ _).subset (List.mem_map_of_mem hs)

end Showings

end Search

end ExactCover
