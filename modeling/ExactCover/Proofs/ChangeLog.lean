/-
ExactCover.Proofs.ChangeLog — the changes are an exact log of what happened to
candidates.

A `Ledger` is what a listener keeps who wants to know which candidates are still
possible and which have been placed. It refuses a change that cannot have happened:
one that rules out or places a candidate that is not possible, say. `Follows` says
that a ledger is led to another by a list of changes, none of which it refuses.

One placement reports every other active candidate that shares a constraint with the
placed one, and reports it once (`Coherent.rivals_place`): whatever one cover rules
out is gone from the columns of the covers that come after it. So what a call reports
leads from the ledger of the matrix before it to that of the matrix after it. A call
that takes something back reports the mirror image of changes that led the other way,
and those lead back (`Follows.mirror`). `Call.follows` is the step, with one case for
every call, and `Chronicle.tracks` the whole history.
-/
import ExactCover.Proofs.Givens
import ExactCover.Proofs.Reversal

namespace ExactCover

/-! ## Ledgers -/

/-- The candidates that are still possible and those that have been placed. -/
structure Ledger where
  possible : Finset CandidateId
  placed : Finset CandidateId
  deriving DecidableEq

namespace Ledger

/-- Rules out a candidate that is possible. -/
def strike (k : Ledger) (r : CandidateId) : Option Ledger :=
  if r ∈ k.possible then some { k with possible := k.possible.erase r } else none

/-- Makes a candidate possible again that is not. -/
def allow (k : Ledger) (r : CandidateId) : Option Ledger :=
  if r ∈ k.possible then none else some { k with possible := insert r k.possible }

/-- Moves a candidate that is possible to those that have been placed. -/
def place (k : Ledger) (r : CandidateId) : Option Ledger :=
  if r ∈ k.possible then some ⟨k.possible.erase r, insert r k.placed⟩ else none

/-- Moves a candidate that has been placed back to those that are possible. -/
def release (k : Ledger) (r : CandidateId) : Option Ledger :=
  if r ∈ k.placed then some ⟨insert r k.possible, k.placed.erase r⟩ else none

/-- Keeps a ledger, as long as every change can be entered. -/
def keeper : Listener (Option Ledger) where
  added := fun k r => k.bind (·.allow r)
  removed := fun k r => k.bind (·.strike r)
  solved := fun k r => k.bind (·.place r)
  unsolved := fun k r => k.bind (·.release r)
  hinted := fun k r => k.bind (·.place r)

/-- All changes of a list can be entered one after another, and lead from one ledger to another. -/
def Follows (k : Ledger) (changes : List Change) (l : Ledger) : Prop :=
  dispatch changes keeper (some k) = some l

/-- Nothing that has been placed is still possible. -/
def Apart (k : Ledger) : Prop := Disjoint k.possible k.placed

variable {k l : Ledger} {changes more : List Change} {r : CandidateId}

theorem follows_nil : Follows k [] k := rfl

theorem Follows.append {o : Ledger} (h : Follows k changes l) (h' : Follows l more o) :
    Follows k (changes ++ more) o := by
  unfold Follows dispatch at h h' ⊢
  rw [List.foldl_append, h, h']

/-- Once a change has been refused, the listener stays without a ledger. -/
theorem dispatch_none (changes : List Change) : dispatch changes keeper none = none := by
  induction changes with
  | nil => rfl
  | cons x changes ih => cases x <;> exact ih

theorem follows_cons {x : Change} {o : Ledger} : Follows k (x :: changes) o ↔
    ∃ l, Follows k [x] l ∧ Follows l changes o := by
  constructor
  · intro h
    cases hx : keeper.notify (some k) x with
    | none =>
      have hrest : dispatch changes keeper (keeper.notify (some k) x) = some o := h
      rw [hx, dispatch_none] at hrest
      cases hrest
    | some l =>
      refine ⟨l, hx, ?_⟩
      have hrest : dispatch changes keeper (keeper.notify (some k) x) = some o := h
      rwa [hx] at hrest
  · intro h
    obtain ⟨l, hone, hrest⟩ := h
    exact hone.append hrest

theorem follows_removed (hr : r ∈ k.possible) :
    Follows k [.removed r] { k with possible := k.possible.erase r } :=
  if_pos hr

theorem follows_solved (hr : r ∈ k.possible) :
    Follows k [.solved r] ⟨k.possible.erase r, insert r k.placed⟩ := if_pos hr

theorem follows_hinted (hr : r ∈ k.possible) :
    Follows k [.hinted r] ⟨k.possible.erase r, insert r k.placed⟩ := if_pos hr

/-- Candidates that are possible can be ruled out one after another if none comes twice. -/
theorem follows_removed_all {others : List CandidateId} (hd : others.Nodup)
    (hk : ∀ q ∈ others, q ∈ k.possible) :
    Follows k (others.map .removed) { k with possible := k.possible \ others.toFinset } := by
  induction others generalizing k with
  | nil => simp [follows_nil]
  | cons q others ih =>
    obtain ⟨hq, hd⟩ := List.nodup_cons.mp hd
    have hone := follows_removed (hk q List.mem_cons_self)
    have hrest := @ih { k with possible := k.possible.erase q } hd fun x hx => by
      have hne : x ≠ q := fun e => hq (e ▸ hx)
      exact Finset.mem_erase.mpr ⟨hne, hk x (List.mem_cons_of_mem q hx)⟩
    rw [List.map_cons, List.toFinset_cons, Finset.sdiff_insert, ← Finset.erase_sdiff_comm]
    exact hone.append hrest

/-- A placement or an elimination that was entered can be taken back. -/
theorem Follows.mirror_one {x : Change} (h : Follows k [x] l) (hk : k.Apart) (hx : x.Narrowing) :
    l.Apart ∧ Follows l [x.undone] k := by
  cases x with
  | removed r =>
    have h : k.strike r = some l := h
    unfold strike at h
    split at h
    · next hr =>
      cases h
      refine ⟨Finset.disjoint_of_subset_left (Finset.erase_subset r _) hk, ?_⟩
      show allow _ r = some k
      rw [allow, if_neg (Finset.notMem_erase r _)]
      simp only [Finset.insert_erase hr]
    · cases h
  | solved r =>
    have h : k.place r = some l := h
    unfold place at h
    split at h
    · next hr =>
      have hnew : r ∉ k.placed := Finset.disjoint_left.mp hk hr
      cases h
      constructor
      · refine Finset.disjoint_insert_right.mpr ⟨Finset.notMem_erase r _, ?_⟩
        exact Finset.disjoint_of_subset_left (Finset.erase_subset r _) hk
      · show release _ r = some k
        rw [release, if_pos (Finset.mem_insert_self r _)]
        simp only [Finset.insert_erase hr, Finset.erase_insert hnew]
    · cases h
  | added r => exact absurd hx id
  | unsolved r => exact absurd hx id
  | hinted r => exact absurd hx id

/-- Placements and eliminations that were entered are taken back by their mirror image. -/
theorem Follows.mirror (h : Follows k changes l) (hk : k.Apart)
    (hn : ∀ x ∈ changes, x.Narrowing) : Follows l (changes.reverse.map Change.undone) k := by
  induction changes generalizing k with
  | nil =>
    cases h
    exact follows_nil
  | cons x changes ih =>
    obtain ⟨o, hone, hrest⟩ := follows_cons.mp h
    obtain ⟨ho, hback⟩ := hone.mirror_one hk (hn x List.mem_cons_self)
    rw [List.reverse_cons, List.map_append]
    exact (ih hrest ho fun y hy => hn y (List.mem_cons_of_mem x hy)).append hback

end Ledger

namespace Matrix

variable {P : Type} {m n : Matrix P} {x : CellId}

/-- The ledger of what a matrix has left and what has been placed in it. -/
def ledger (m : Matrix P) : Ledger := ⟨m.activeCandidates.toFinset, m.solutionCandidates.toFinset⟩

theorem Coherent.mem_ledger (hm : m.Coherent) {r : CandidateId} :
    r ∈ m.ledger.possible ↔ m.isCandidateActive r = true := by
  rw [ledger, List.mem_toFinset, hm.mem_activeCandidates]

theorem Accounted.apart_ledger (h : m.Accounted) (hm : m.Coherent) : m.ledger.Apart := by
  refine Finset.disjoint_left.mpr fun r hr hplaced => ?_
  exact h.not_mem hm (hm.mem_ledger.mp hr) (List.mem_toFinset.mp hplaced)

/-! ## What a placement touches -/

/-- `others` are the other active candidates that share a constraint with `r`, each of them
once. -/
structure Rivals (m : Matrix P) (r : CandidateId) (others : List CandidateId) : Prop where
  nodup : others.Nodup
  mem_iff : ∀ q, q ∈ others ↔ q ∈ m.activeCandidates ∧ q ≠ r ∧ Coherent.Shares m q r

/-- A placement covers the constraints of the candidate one after another, that of the cell
first. -/
theorem touched_place (m : Matrix P) (x : CellId) :
    (m.place x).touched =
      (sequence cover m ((x :: m.rightOf x).map m.constraintOf)).touched := by
  have hb := (relinked_cover m (m.constraintOf x)).board
  simp only [place, coverRow, sequence, List.map_cons, rightOf_of_board hb,
    constraintOf_of_board hb]

namespace Coherent

/-- Covering several constraints touches the active candidates that satisfy one of them, and none of
them twice: a candidate that is touched is in no column any more. -/
theorem touched_covers {cs : List ConstraintId} (hm : m.Coherent) (hcs : OpenList m cs) :
    (sequence Matrix.cover m cs).touched.Nodup ∧
      ∀ q, q ∈ (sequence Matrix.cover m cs).touched ↔
        m.isCandidateActive q = true ∧ ∃ c ∈ cs, m.Hits q c := by
  induction cs generalizing m with
  | nil => simp [sequence]
  | cons c cs ih =>
    obtain ⟨hc, hu⟩ := hcs.2 c List.mem_cons_self
    have hn := hm.narrows_cover hc hu
    obtain ⟨hd, hrest⟩ := ih (hm.cover hc hu) (hm.openList_cover hcs)
    rw [hits_of_board hn.board] at hrest
    have hone : ∀ q, q ∈ (m.cover c).touched ↔ m.isCandidateActive q = true ∧ m.Hits q c :=
      fun q => hm.mem_column_candidates hc hu
    show ((m.cover c).touched ++ (sequence Matrix.cover (m.cover c).matrix cs).touched).Nodup ∧
      ∀ q, q ∈ (m.cover c).touched ++ (sequence Matrix.cover (m.cover c).matrix cs).touched ↔ _
    constructor
    · refine List.nodup_append'.mpr ⟨hm.column_candidates_nodup hc, hd, ?_⟩
      intro q hq hq'
      exact ((hn.active q).mp ((hrest q).mp hq').1).2 ((hone q).mp hq).2
    · intro q
      rw [List.mem_append, hone, hrest, hn.active]
      constructor
      · rintro (⟨ha, hqc⟩ | ⟨⟨ha, -⟩, d, hd, hqd⟩)
        · exact ⟨ha, c, List.mem_cons_self, hqc⟩
        · exact ⟨ha, d, List.mem_cons_of_mem c hd, hqd⟩
      · rintro ⟨ha, d, hd, hqd⟩
        by_cases hqc : m.Hits q c
        · exact Or.inl ⟨ha, hqc⟩
        · rcases List.mem_cons.mp hd with rfl | hd
          · exact absurd hqd hqc
          · exact Or.inr ⟨⟨ha, hqc⟩, d, hd, hqd⟩

theorem openList_row (hm : m.Coherent) (ha : m.isCandidateActive (m.candidateOf x) = true) :
    OpenList m ((x :: m.rightOf x).map m.constraintOf) := by
  have hrow : ∀ y ∈ x :: m.rightOf x, y ∈ m.row (m.candidateOf x) := fun y =>
    (hm.laid.mem_cons_rightOf (hm.mem_row ha)).mp
  constructor
  · refine List.Nodup.map_on ?_ (hm.laid.nodup_cons_rightOf (hm.mem_row ha))
    intro y hy z hz
    exact hm.laid.eq_of_constraintOf (hrow y hy) (hrow z hz)
  · intro c hc
    obtain ⟨y, hy, rfl⟩ := List.mem_map.mp hc
    exact ⟨hm.laid.hasConstraint_row (hrow y hy), hm.settled _ _ ha ⟨y, hrow y hy, rfl⟩⟩

/-- Placing a candidate touches the active candidates that share a constraint with it, itself among
them, and none of them twice. Without itself they are its rivals. -/
theorem rivals_place (hm : m.Coherent) (ha : m.isCandidateActive (m.candidateOf x) = true) :
    m.Rivals (m.candidateOf x) ((m.place x).touched.filter (· != m.candidateOf x)) := by
  obtain ⟨hd, hmem⟩ := hm.touched_covers (hm.openList_row ha)
  rw [← touched_place] at hd hmem
  refine ⟨hd.filter _, fun q => ?_⟩
  rw [List.mem_filter, bne_iff_ne, hmem, hm.mem_activeCandidates, and_assoc]
  refine and_congr_right fun _ => ?_
  rw [and_comm]
  refine and_congr_right fun _ => ?_
  simp only [List.mem_map, hm.laid.mem_cons_rightOf (hm.mem_row ha)]
  constructor
  · rintro ⟨c, ⟨y, hy, rfl⟩, hq⟩
    exact ⟨_, hq, y, hy, rfl⟩
  · rintro ⟨c, hq, y, hy, rfl⟩
    exact ⟨_, ⟨y, hy, rfl⟩, hq⟩

/-- What a placement reports leads from the ledger before it to the one after it, whether it is
reported as a hint or as part of the solution. -/
theorem follows_place (hm : m.Coherent) (ha : m.isCandidateActive (m.candidateOf x) = true)
    {first : Change}
    (hfirst : first = .solved (m.candidateOf x) ∨ first = .hinted (m.candidateOf x))
    (hn : n.Coherent) (hl : n.links = (m.place x).matrix.links)
    (hs : n.solutionCandidates.Perm (m.candidateOf x :: m.solutionCandidates)) :
    m.ledger.Follows (first :: ((m.place x).touched.filter (· != m.candidateOf x)).map .removed)
      n.ledger := by
  have hrivals := hm.rivals_place ha
  have hr := hm.mem_ledger.mpr ha
  have hone : m.ledger.Follows [first]
      ⟨m.ledger.possible.erase (m.candidateOf x), insert (m.candidateOf x) m.ledger.placed⟩ := by
    rcases hfirst with rfl | rfl
    · exact Ledger.follows_solved hr
    · exact Ledger.follows_hinted hr
  have hothers := Ledger.follows_removed_all (k := ⟨m.ledger.possible.erase (m.candidateOf x),
    insert (m.candidateOf x) m.ledger.placed⟩) hrivals.nodup fun q hq => by
      obtain ⟨hq, hne, -⟩ := (hrivals.mem_iff q).mp hq
      exact Finset.mem_erase.mpr ⟨hne, List.mem_toFinset.mpr hq⟩
  refine Ledger.follows_cons.mpr ⟨_, hone, ?_⟩
  suffices heq : n.ledger = _ by
    rw [heq]
    exact hothers
  refine (Ledger.mk.injEq ..).mpr ⟨?_, ?_⟩
  · ext q
    have hactive : n.isCandidateActive q = (m.place x).matrix.isCandidateActive q := by
      simp only [isCandidateActive, hl]
    show q ∈ n.ledger.possible ↔ _
    rw [hn.mem_ledger, hactive, (hm.narrows_place ha).active, Finset.mem_sdiff, Finset.mem_erase,
      List.mem_toFinset, hrivals.mem_iff, hm.mem_activeCandidates, hm.mem_ledger]
    constructor
    · rintro ⟨hq, hapart⟩
      refine ⟨⟨?_, hq⟩, fun hrival => hapart hrival.2.2⟩
      rintro rfl
      exact hapart (hm.shares_self ha)
    · rintro ⟨⟨hne, hq⟩, hrival⟩
      exact ⟨hq, fun hshares => hrival ⟨hq, hne, hshares⟩⟩
  · ext q
    simp only [ledger, List.mem_toFinset, hs.mem_iff, List.mem_cons, Finset.mem_insert]

theorem follows_eliminateRow (hm : m.Coherent)
    (ha : m.isCandidateActive (m.candidateOf x) = true) :
    m.ledger.Follows [.removed (m.candidateOf x)] (m.eliminateRow x).matrix.ledger := by
  suffices heq : (m.eliminateRow x).matrix.ledger =
      { m.ledger with possible := m.ledger.possible.erase (m.candidateOf x) } by
    rw [heq]
    exact Ledger.follows_removed (hm.mem_ledger.mpr ha)
  refine (Ledger.mk.injEq ..).mpr ⟨?_, ?_⟩
  · ext q
    show q ∈ (m.eliminateRow x).matrix.ledger.possible ↔ _
    rw [(hm.eliminateRow ha).mem_ledger, (hm.narrows_eliminateRow ha).active, Finset.mem_erase,
      hm.mem_ledger, and_comm]
  · rw [solutionCandidates_eliminateRow]
    rfl

end Coherent

/-! ## Calls -/

theorem addHint_changes {name : String} {changes : List Change}
    (h : m.addHint name = .ok (n, changes)) :
    ∃ r, m.candidateByName? name = some r ∧ m.isCandidateActive r = true ∧
      n = m.hinted (m.firstCell r) ∧
      changes = .hinted r :: ((m.place (m.firstCell r)).touched.filter (· != r)).map .removed := by
  obtain ⟨r, hname, ha, rfl⟩ := eq_hinted h
  refine ⟨r, hname, ha, rfl, ?_⟩
  simp only [addHint, activeByName, hname, ha, if_true, Except.ok.injEq, Prod.mk.injEq] at h
  exact h.2.symm

end Matrix

section Calls

variable {P : Type} {es fs : List Entry} {m n : Matrix P} {changes : List Change}

theorem Action.follows_apply {a : Action} (hm : m.Coherent) (ha : a.Allowed m) :
    m.ledger.Follows (a.apply m).2 (a.apply m).1.ledger := by
  cases a with
  | solve x =>
    refine hm.follows_place ha (Or.inl rfl) (Action.coherent_apply (a := .solve x) hm ha) rfl ?_
    show ((m.place x).matrix.pushSolution x).solutionCandidates.Perm _
    rw [Matrix.solutionCandidates_solve]
    exact List.perm_append_singleton _ _
  | eliminate x => exact hm.follows_eliminateRow ha

theorem Action.follows_applyAll {as : List Action} (hm : m.Coherent)
    (ha : Action.AllAllowed m as) :
    m.ledger.Follows (runChanges Action.apply m as).2 (runChanges Action.apply m as).1.ledger := by
  induction as generalizing m with
  | nil => exact Ledger.follows_nil
  | cons a as ih =>
    exact (Action.follows_apply hm ha.1).append (ih (Action.coherent_apply hm ha.1) ha.2)

theorem Deduction.follows_apply {d : Deduction} (hm : m.Coherent) (hd : d.Applicable m) :
    m.ledger.Follows (d.apply m).2 (d.apply m).1.ledger := Action.follows_applyAll hm hd

/-- The deduction that was applied last is taken back from the ledger as from the matrix. -/
theorem Deduction.follows_undo {d : Deduction} (h : Reached (.deduction d :: es) m)
    (hes : ∀ e ∈ es, e.Whole) : m.ledger.Follows (d.undo m).2 (d.undo m).1.ledger := by
  cases h.trail with
  | @apply _ n _ hbefore hd =>
    have hn := hbefore.coherent
    have hapart := (hbefore.accounted hes).apart_ledger hn
    rw [Deduction.undo_apply hn hd]
    exact (Deduction.follows_apply hn hd).mirror hapart (Deduction.narrowing_apply n d)

theorem Solver.Ran.follows {strategies : List Strategy} {k : Nat} {out : Matrix P × Report}
    (hr : Solver.Ran strategies k m out) (hm : m.Coherent) :
    m.ledger.Follows out.2.changes out.1.ledger := by
  induction hr with
  | blocked _ => exact Ledger.follows_nil
  | solved _ => exact Ledger.follows_nil
  | stuck _ => exact Ledger.follows_nil
  | spent _ _ => exact Ledger.follows_nil
  | apply hstep _ ih =>
    have hd := Solver.step_applicable hm hstep
    exact (Deduction.follows_apply hm hd).append (ih (Deduction.coherent_apply hm hd))

/-- Deductions that are taken back one after another, the last first, are taken back from the ledger
as well. -/
theorem Deduction.follows_undoAll {ds : List Deduction} (h : Reached (ds.map .deduction ++ es) m)
    (hes : ∀ e ∈ es, e.Whole) :
    Reached es (runChanges (fun m d => d.undo m) m ds).1 ∧
      m.ledger.Follows (runChanges (fun m d => d.undo m) m ds).2
        (runChanges (fun m d => d.undo m) m ds).1.ledger := by
  induction ds generalizing m with
  | nil => exact ⟨h, Ledger.follows_nil⟩
  | cons d ds ih =>
    have hone := Deduction.follows_undo h (Entry.whole_deductions hes)
    obtain ⟨hreached, hrest⟩ := ih h.undo
    exact ⟨hreached, hone.append hrest⟩

/-- A call that reports changes, with what is open before and after it. What is taken back is what
is open last: one deduction, or all deductions of a run. -/
inductive Call : List Entry → Matrix P → List Change → List Entry → Matrix P → Prop
  | addHint {es : List Entry} {m n : Matrix P} {name : String} {changes : List Change}
      {h : CellId} :
      m.addHint name = .ok (n, changes) → n.hints.back? = some h →
      Call es m changes (.hint h :: es) n
  | eliminateCandidate {es : List Entry} {m n : Matrix P} {name : String}
      {changes : List Change} :
      m.eliminateCandidate name = .ok (n, changes) →
      Call es m changes (Entry.eliminations n changes ++ es) n
  | apply {es : List Entry} {m : Matrix P} {d : Deduction} :
      d.Applicable m → Call es m (d.apply m).2 (.deduction d :: es) (d.apply m).1
  | undo {es : List Entry} {m : Matrix P} {d : Deduction} :
      Call (.deduction d :: es) m (d.undo m).2 es (d.undo m).1
  | solve {es : List Entry} {m n : Matrix P} {strategies : List Strategy} {report : Report} :
      Solver.solve strategies m = .ok (n, report) →
      Call es m report.changes (report.deductions.reverse.map .deduction ++ es) n
  | rewind {es : List Entry} {m : Matrix P} {report : Report} :
      Call (report.deductions.reverse.map .deduction ++ es) m (report.rewind m).2 es
        (report.rewind m).1

/-- After a call the matrix has been reached by what is open then, nothing but whole candidates is
among that, and what the call reports leads from the one ledger to the other. -/
theorem Call.follows (hc : Call es m changes fs n) (h : Reached es m) (hes : ∀ e ∈ es, e.Whole) :
    Reached fs n ∧ (∀ e ∈ fs, e.Whole) ∧ m.ledger.Follows changes n.ledger := by
  have hm := h.coherent
  cases hc with
  | addHint hok hback =>
    have hreached := h.hint hok hback
    refine ⟨hreached, List.forall_mem_cons.mpr ⟨trivial, hes⟩, ?_⟩
    obtain ⟨r, -, ha, rfl, rfl⟩ := Matrix.addHint_changes hok
    have hcell := hm.candidateOf_firstCell ha
    have hfollows := hm.follows_place (x := m.firstCell r) (hcell.symm ▸ ha) (Or.inr rfl)
      hreached.coherent rfl (m.solutionCandidates_hinted _)
    rwa [hcell] at hfollows
  | eliminateCandidate hok =>
    refine ⟨h.eliminateCandidate hok, ?_, ?_⟩
    · intro e he
      rcases List.mem_append.mp he with he | he
      · obtain ⟨k, -, rfl⟩ := List.mem_map.mp he
        exact trivial
      · exact hes e he
    · rcases Matrix.eliminateCandidate_ok hm hok with ⟨rfl, rfl⟩ | ⟨r, ha, hcell, rfl, rfl⟩
      · exact Ledger.follows_nil
      · have hfollows := hm.follows_eliminateRow ha
        rwa [hcell] at hfollows
  | apply hd =>
    exact ⟨h.apply hd, List.forall_mem_cons.mpr ⟨trivial, hes⟩, Deduction.follows_apply hm hd⟩
  | undo =>
    have hes := (List.forall_mem_cons.mp hes).2
    exact ⟨h.undo, hes, Deduction.follows_undo h hes⟩
  | solve hok =>
    have hran := Solver.solve_ran hok
    exact ⟨(hran.reached h).1, Entry.whole_deductions hes, hran.follows hm⟩
  | rewind =>
    have hes := (List.forall_mem_append.mp hes).2
    obtain ⟨hreached, hfollows⟩ := Deduction.follows_undoAll h hes
    exact ⟨hreached, hes, hfollows⟩

/-! ## Histories -/

/-- Calls on a matrix one after another: all that they reported, what is open after the last of
them, and the matrix then. -/
inductive Chronicle (m₀ : Matrix P) : List Change → List Entry → Matrix P → Prop
  | start : Chronicle m₀ [] [] m₀
  | call {log changes : List Change} {es fs : List Entry} {m n : Matrix P} :
      Chronicle m₀ log es m → Call es m changes fs n → Chronicle m₀ (log ++ changes) fs n

theorem Chronicle.follows {m₀ : Matrix P} {log : List Change} (h₀ : m₀.Built)
    (h : Chronicle m₀ log es m) :
    Reached es m ∧ (∀ e ∈ es, e.Whole) ∧ m₀.ledger.Follows log m.ledger := by
  induction h with
  | start => exact ⟨.built h₀, nofun, Ledger.follows_nil⟩
  | call _ hc ih =>
    obtain ⟨hreached, hes, hlog⟩ := ih
    obtain ⟨hreached, hfs, hfollows⟩ := hc.follows hreached hes
    exact ⟨hreached, hfs, hlog.append hfollows⟩

/-- A listener that starts with the ledger of a matrix that was built and is told of every change
that calls on it report can enter each of them, and has the ledger of the matrix after every
call. In particular a candidate that is solved or fixed reports itself, and then every other
active candidate that shares a constraint with it once. -/
theorem Chronicle.tracks {m₀ : Matrix P} {log : List Change} (h₀ : m₀.Built)
    (h : Chronicle m₀ log es m) :
    dispatch log Ledger.keeper (some m₀.ledger) = some m.ledger ∧
      (∀ x, m.isCandidateActive (m.candidateOf x) = true →
        ∃ others, (Action.apply m (.solve x)).2 =
            .solved (m.candidateOf x) :: others.map .removed ∧
          m.Rivals (m.candidateOf x) others) ∧
      ∀ name n changes, m.addHint name = .ok (n, changes) →
        ∃ r others, m.candidateByName? name = some r ∧
          changes = .hinted r :: others.map .removed ∧ m.Rivals r others := by
  obtain ⟨hreached, -, hfollows⟩ := h.follows h₀
  have hm := hreached.coherent
  refine ⟨hfollows, fun x ha => ⟨_, rfl, hm.rivals_place ha⟩, fun name n changes hok => ?_⟩
  obtain ⟨r, hname, ha, -, hchanges⟩ := Matrix.addHint_changes hok
  have hcell := hm.candidateOf_firstCell ha
  have hrivals := hm.rivals_place (x := m.firstCell r) (hcell.symm ▸ ha)
  rw [hcell] at hrivals
  exact ⟨r, _, hname, hchanges, hrivals⟩

/-- `x` is solved by a deduction, which is undone, and then `x` is fixed. -/
theorem Chronicle.tracks_sample :
    ∃ es m, Chronicle Matrix.sample
        [.solved 1, .removed 2, .added 2, .unsolved 1, .hinted 1, .removed 2] es m ∧
      dispatch [.solved 1, .removed 2, .added 2, .unsolved 1, .hinted 1, .removed 2] Ledger.keeper
        (some ⟨{1, 2, 3}, ∅⟩) = some m.ledger := by
  have happlicable : Action.AllAllowed Matrix.sample [.solve 4] :=
    ⟨(by decide : Matrix.sample.isCandidateActive 1 = true), trivial⟩
  have hundo := Deduction.undo_apply (d := ⟨.singles, .single 1, [.solve 4], ""⟩)
    (Reached.built Matrix.built_sample).coherent happlicable
  have hchanges : (Deduction.apply ⟨.singles, .single 1, [.solve 4], ""⟩ Matrix.sample).2 =
      [.solved 1, .removed 2] := by decide
  have hhint : Matrix.sample.addHint "x" =
      .ok ({ (Matrix.sample.place 4).matrix with hints := #[4] }, [.hinted 1, .removed 2]) := by
    cbv
  have hsolved := Chronicle.start.call
    (Call.apply (d := ⟨.singles, .single 1, [.solve 4], ""⟩) happlicable)
  have hback := hsolved.call .undo
  rw [hundo, hchanges] at hback
  have hfixed := hback.call (.addHint hhint rfl)
  have hledger : Matrix.sample.ledger = ⟨{1, 2, 3}, ∅⟩ := by decide
  have htracks := (Chronicle.tracks Matrix.built_sample hfixed).1
  rw [hledger] at htracks
  exact ⟨_, _, hfixed, htracks⟩

end Calls

end ExactCover
