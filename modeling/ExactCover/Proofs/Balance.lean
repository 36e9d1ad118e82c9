/-
ExactCover.Proofs.Balance — the counters of a search agree with each other.

Statistics are `Levelled` up to a depth if each level before it has its updates and
something that was branched on there, and no other level has. When a node is visited this
is so up to the deepest level or up to the one of the node, and every step of a search
keeps it (`Costs.levels`); at the end of a search it is so up to the deepest level.

A node is visited because a search starts there or because it is one of the ways that were
branched at the level before. All these ways are gone, unless something cuts the search
short. So the profile tells how many nodes there are (`Costs.nodes`).

Statistics may be handed on from one search to the next, on any matrices, with any limits
and with any visitors (`Accumulated`). All of this is kept from search to search, and every
report is counted (`Accumulated.balanced`).
-/
import Mathlib.Algebra.BigOperators.Ring.Finset
import Mathlib.Order.Interval.Set.Nat
import ExactCover.Proofs.Costs
import ExactCover.Proofs.Truncation

namespace ExactCover

/-! ## Arrays that grow -/

section Growing

variable {α : Type} {fill : α} {f : α → α} {xs : Array α} {ns : Array Nat} {i j n : Nat}

theorem size_extendTo : (extendTo fill i xs).size = max xs.size (i + 1) := by
  rw [extendTo, Array.size_append, Array.size_replicate]
  omega

/-- Beyond the end of an array there is nothing but `fill`. -/
theorem getD_extendTo : (extendTo fill i xs).getD j fill = xs.getD j fill := by
  simp only [Array.getD_eq_getD_getElem?, extendTo, Array.getElem?_append]
  split
  · rfl
  · next hj =>
    have hj : xs.size ≤ j := Nat.le_of_not_lt hj
    rw [Array.getElem?_eq_none hj, Array.getElem?_replicate]
    split <;> rfl

/-- An array is extended so far that the entry is there to be changed. -/
theorem getD_modify_extendTo : ((extendTo fill i xs).modify i f).getD j fill =
    if j = i then f (xs.getD j fill) else xs.getD j fill := by
  have hi : i < (extendTo fill i xs).size := by
    rw [size_extendTo]
    omega
  have hsame : (extendTo fill i xs).getD j fill = xs.getD j fill := getD_extendTo
  rw [← hsame]
  simp only [Array.getD_eq_getD_getElem?, Array.getElem?_modify]
  by_cases h : j = i
  · subst h
    rw [if_pos rfl, if_pos rfl, Array.getElem?_eq_getElem hi]
    rfl
  · rw [if_neg (Ne.symm h), if_neg h]

theorem sum_modify_extendTo : ((extendTo 0 i ns).modify i (· + n)).sum = ns.sum + n := by
  have hi : i < (extendTo 0 i ns).toList.length := by
    rw [Array.length_toList, size_extendTo]
    omega
  have hsum : (extendTo 0 i ns).toList.sum = ns.sum := by
    rw [Array.sum_toList, extendTo, Array.sum_append]
    simp
  rw [← Array.sum_toList, Array.toList_modify, List.modify_eq_take_cons_drop hi, ← hsum]
  conv_rhs => rw [← List.take_append_drop i (extendTo 0 i ns).toList, List.drop_eq_getElem_cons hi]
  simp only [List.sum_append, List.sum_cons]
  omega

end Growing

namespace Statistics

/-! ## What a profile says -/

variable {s : Statistics} {level degree updates depth width : Nat}

/-- The levels at which something was branched on. -/
def branchedLevels (s : Statistics) : Set Nat := {level | ∃ degree, 0 < s.profile level degree}

/-- The degrees of what was branched on. -/
def branchedDegrees (s : Statistics) : Set Nat := {degree | ∃ level, 0 < s.profile level degree}

/-- The ways that were branched at the levels before `depth`, where a degree is at most `width`. -/
def waysWithin (s : Statistics) (depth width : Nat) : Nat :=
  ∑ level ∈ Finset.range depth, ∑ degree ∈ Finset.range (width + 1), degree * s.profile level degree

/-- The ways that were branched. -/
def ways (s : Statistics) : Nat := s.waysWithin s.maxDepth s.maxBranching

@[simp] theorem nodes_recordNode : (s.recordNode level).nodes = s.nodes + 1 := rfl

@[simp] theorem nodes_recordBranch : (s.recordBranch level degree).nodes = s.nodes := rfl

@[simp] theorem nodes_recordUpdates : (s.recordUpdates level updates).nodes = s.nodes := rfl

@[simp] theorem waysWithin_recordNode :
    (s.recordNode level).waysWithin depth width = s.waysWithin depth width := rfl

@[simp] theorem waysWithin_recordUpdates :
    (s.recordUpdates level updates).waysWithin depth width = s.waysWithin depth width := rfl

theorem profile_recordBranch (l d : Nat) : (s.recordBranch level degree).profile l d =
    s.profile l d + if l = level ∧ d = degree then 1 else 0 := by
  unfold profile recordBranch
  dsimp only
  rw [getD_modify_extendTo]
  by_cases hl : l = level
  · rw [if_pos hl, getD_modify_extendTo]
    by_cases hd : d = degree
    · rw [if_pos hd, if_pos ⟨hl, hd⟩]
    · rw [if_neg hd, if_neg fun h => hd h.2, Nat.add_zero]
  · rw [if_neg hl, if_neg fun h => hl h.1, Nat.add_zero]

theorem profile_recordBranch_pos (l d : Nat) : 0 < (s.recordBranch level degree).profile l d ↔
    0 < s.profile l d ∨ (l = level ∧ d = degree) := by
  rw [profile_recordBranch]
  split
  · next h => simp [h]
  · next h => simp [h]

theorem branchedLevels_recordBranch :
    (s.recordBranch level degree).branchedLevels = insert level s.branchedLevels := by
  ext l
  simp only [branchedLevels, Set.mem_ofPred_eq, Set.mem_insert_iff, profile_recordBranch_pos,
    exists_or, exists_and_left, exists_eq, and_true, or_comm]

theorem branchedDegrees_recordBranch :
    (s.recordBranch level degree).branchedDegrees = insert degree s.branchedDegrees := by
  ext d
  simp only [branchedDegrees, Set.mem_ofPred_eq, Set.mem_insert_iff, profile_recordBranch_pos,
    exists_or, exists_and_right, exists_eq, true_and, or_comm]

/-- What is branched on counts for its degree. -/
theorem waysWithin_recordBranch (hlevel : level < depth) (hdegree : degree ≤ width) :
    (s.recordBranch level degree).waysWithin depth width = s.waysWithin depth width + degree := by
  have hone : ∑ l ∈ Finset.range depth, ∑ d ∈ Finset.range (width + 1),
      d * (if l = level ∧ d = degree then 1 else 0) = degree := by
    simp [ite_and, hlevel, Nat.lt_succ_of_le hdegree]
  simp only [waysWithin, profile_recordBranch, Nat.mul_add, Finset.sum_add_distrib, hone]

/-! ## Statistics that have come to a level -/

/-- The updates are those of the levels before `depth`. These are the levels at which something was
branched on, nothing that has no candidates, and the widest that was branched on is known. -/
structure Levelled (s : Statistics) (depth : Nat) : Prop where
  updates : s.updates = s.levelUpdates.sum
  levelUpdates : s.levelUpdates.size = depth
  profiles : s.profiles.size = depth
  levels : s.branchedLevels = Set.Iio depth
  degrees : IsGreatest (insert 0 s.branchedDegrees) s.maxBranching
  zero : ∀ level, s.profile level 0 = 0

theorem levelled_default : Levelled {} 0 where
  updates := rfl
  levelUpdates := rfl
  profiles := rfl
  levels := by simp [branchedLevels, profile]
  degrees := by simp [branchedDegrees, profile]
  zero := fun _ => by simp [profile]

namespace Levelled

theorem recordNode (h : s.Levelled depth) : (s.recordNode level).Levelled depth :=
  ⟨h.updates, h.levelUpdates, h.profiles, h.levels, h.degrees, h.zero⟩

theorem recordSolution (h : s.Levelled depth) : s.recordSolution.Levelled depth :=
  ⟨h.updates, h.levelUpdates, h.profiles, h.levels, h.degrees, h.zero⟩

/-- What is taken out at a level that is there already. -/
theorem recordUpdates (h : s.Levelled depth) (hlevel : level < depth) :
    (s.recordUpdates level updates).Levelled depth := by
  refine ⟨?_, ?_, h.profiles, h.levels, h.degrees, h.zero⟩
  · rw [Statistics.recordUpdates, sum_modify_extendTo, h.updates]
  · rw [Statistics.recordUpdates, Array.size_modify, size_extendTo, h.levelUpdates]
    omega

/-- A level where a constraint is branched on is one of them from then on. -/
theorem branch (h : s.Levelled depth) (hlevel : level ≤ depth) (hdegree : degree ≠ 0) :
    ((s.recordBranch level degree).recordUpdates level updates).Levelled
      (max depth (level + 1)) where
  updates := by
    rw [Statistics.recordUpdates, sum_modify_extendTo]
    exact congrArg (· + updates) h.updates
  levelUpdates := by
    rw [Statistics.recordUpdates, Array.size_modify, size_extendTo]
    exact congrArg (max · _) h.levelUpdates
  profiles := by
    show (s.recordBranch level degree).profiles.size = _
    rw [recordBranch, Array.size_modify, size_extendTo, h.profiles]
  levels := by
    show (s.recordBranch level degree).branchedLevels = _
    rw [branchedLevels_recordBranch, h.levels]
    ext l
    simp only [Set.mem_insert_iff, Set.mem_Iio]
    omega
  degrees := by
    show IsGreatest (insert 0 (s.recordBranch level degree).branchedDegrees) (max _ _)
    rw [branchedDegrees_recordBranch, Set.insert_comm, max_comm]
    exact h.degrees.insert degree
  zero := fun l => by
    show (s.recordBranch level degree).profile l 0 = 0
    rw [profile_recordBranch, h.zero, if_neg fun heq => hdegree heq.2.symm]

/-- All that was branched is before the deepest level and no wider than the widest. -/
theorem waysWithin_eq (h : s.Levelled s.maxDepth) (hdepth : s.maxDepth ≤ depth)
    (hwidth : s.maxBranching ≤ width) : s.waysWithin depth width = s.ways := by
  have hzero : ∀ level degree, s.maxDepth ≤ level ∨ s.maxBranching < degree →
      degree * s.profile level degree = 0 := by
    intro level degree hout
    by_contra hne
    have hpos : 0 < s.profile level degree :=
      Nat.pos_of_ne_zero fun hnone => hne (by rw [hnone, Nat.mul_zero])
    have hlevel : level ∈ Set.Iio s.maxDepth := h.levels ▸ ⟨degree, hpos⟩
    have hdegree := h.degrees.2 (Set.mem_insert_of_mem 0 ⟨level, hpos⟩)
    rcases hout with hout | hout
    · exact Nat.not_lt.mpr hout hlevel
    · exact Nat.not_lt.mpr hdegree hout
  rw [ways, waysWithin, waysWithin]
  have hlevels := Finset.range_subset_range.mpr hdepth
  have hdegrees := Finset.range_subset_range.mpr (Nat.succ_le_succ hwidth)
  refine (Finset.sum_subset hlevels fun level _ hout => ?_).symm.trans
    (Finset.sum_congr rfl fun level _ => ?_)
  · refine Finset.sum_eq_zero fun degree _ => hzero level degree (Or.inl ?_)
    rwa [Finset.mem_range, not_lt] at hout
  · refine (Finset.sum_subset hdegrees fun degree _ hout => ?_).symm
    rw [Finset.mem_range, not_lt] at hout
    exact hzero level degree (Or.inr hout)

end Levelled

end Statistics

namespace Search

open Statistics (waysWithin_recordBranch waysWithin_recordUpdates waysWithin_recordNode
  nodes_recordUpdates nodes_recordBranch nodes_recordNode)

variable {P σ : Type}

/-! ## What a search adds -/

namespace Task

/-- The deepest level that is sure to be visited. -/
def reach : Task P → Nat
  | node level _ => level
  | rows level _ _ => level + 1

/-- How many nodes are to be visited at that level. -/
def size : Task P → Nat
  | node _ _ => 1
  | rows _ _ hs => hs.length

end Task

/-- Statistics that had got as far as the task is are levelled again, and the task has been visited
if there was anything to visit. -/
structure Levels (task : Task P) (s t : Statistics) : Prop where
  levelled : t.Levelled (max t.maxDepth task.reach)
  mono : s.maxDepth ≤ t.maxDepth
  reached : task.size ≠ 0 → task.reach ≤ t.maxDepth

/-- A node is visited for the task and for every way that is branched meanwhile, but for those that
are missed, which are none if the search runs to its end. -/
def NodesCounted (depth width : Nat) (task : Task P) (s t : Statistics) (ending : Ending) : Prop :=
  ∃ missed, t.nodes + missed + s.waysWithin depth width =
      s.nodes + task.size + t.waysWithin depth width ∧
    (ending = .exhausted → missed = 0)

section Costs

variable {Q : Matrix P → Prop} {weight width depth deep wide : Nat} {limits : SearchLimits}
  {level : Nat} {m : Matrix P} {task : Task P} {s t : Statistics} {ending : Ending}

namespace Levels

/-- A task of which something has been visited needs no levels of its own. -/
theorem of_reached (ht : t.Levelled t.maxDepth) (hmono : s.maxDepth ≤ t.maxDepth)
    (hreach : task.reach ≤ t.maxDepth) : Levels task s t :=
  ⟨(max_eq_left hreach).symm ▸ ht, hmono, fun _ => hreach⟩

theorem levelled_maxDepth (h : Levels task s t) (hsome : task.size ≠ 0) :
    t.Levelled t.maxDepth := max_eq_left (h.reached hsome) ▸ h.levelled

/-- Visiting a node is all there is to do there. -/
theorem visit (hs : s.Levelled (max s.maxDepth level)) :
    Levels (.node level m) s (s.recordNode level) :=
  of_reached hs.recordNode (Nat.le_max_left _ _) (Nat.le_max_right _ _)

end Levels

/-- From node to node, all levels that have been got to have their counters. -/
theorem Costs.levels (hq : Shrinks Q weight width) (h : Costs limits task s t ending)
    (hr : task.Room Q weight depth) (hs : s.Levelled (max s.maxDepth task.reach)) :
    Levels task s t := by
  induction h with
  | @solution level m s ending =>
    have hvisit : Levels (.node level m) s (s.recordNode level) := .visit hs
    exact ⟨hvisit.levelled.recordSolution, hvisit.mono, hvisit.reached⟩
  | blocked => exact .visit hs
  | deep => exact .visit hs
  | wide => exact .visit hs
  | @branch level m s t c updates ending hchoose hsome _ _ _ ih =>
    have hc := chooseConstraint_mem hchoose
    have hm := hq.coherent m hr.invariant
    have hlen := hm.len_eq (hm.mem_activeConstraints.mp hc).1
    have hrows := ih (hr.rows hc) (hs.recordNode.branch (Nat.le_max_right _ _) hsome)
    have hbelow : (Task.rows level m (m.column c)).size ≠ 0 := fun hzero => hsome (hlen.trans hzero)
    exact .of_reached (hrows.levelled_maxDepth hbelow) ((Nat.le_max_left _ _).trans hrows.mono)
      ((Nat.le_succ level).trans (hrows.reached hbelow))
  | done => exact ⟨hs, Nat.le_refl _, fun hne => absurd rfl hne⟩
  | @next level m h rest s t u updates ending _ _ ihnode ihrows =>
    have hnode := ihnode (hr.head hq) (hs.recordUpdates (Nat.le_max_right _ _))
    have hrest := ihrows hr.tail hnode.levelled
    refine ⟨hrest.levelled, hnode.mono.trans hrest.mono, fun _ => ?_⟩
    exact (hnode.reached Nat.one_ne_zero).trans hrest.mono
  | cut _ _ ih =>
    have hnode := ih (hr.head hq) (hs.recordUpdates (Nat.le_max_right _ _))
    exact ⟨hnode.levelled, hnode.mono, fun _ => hnode.reached Nat.one_ne_zero⟩

/-- One more node, and nothing that is branched on there. -/
theorem NodesCounted.visit (s : Statistics) (ending : Ending) :
    NodesCounted deep wide (.node level m) s (s.recordNode level) ending :=
  ⟨0, rfl, fun _ => rfl⟩

/-- What is branched on is a node for each of its candidates. -/
theorem Costs.nodes (hq : Shrinks Q weight width) (h : Costs limits task s t ending)
    (hr : task.Room Q weight depth) (hdeep : depth ≤ deep) (hwide : width ≤ wide) :
    NodesCounted deep wide task s t ending := by
  induction h with
  | solution => exact ⟨0, rfl, fun _ => rfl⟩
  | blocked => exact .visit _ _
  | deep => exact .visit _ _
  | wide => exact .visit _ _
  | @branch level m s t c updates ending hchoose hsome _ _ _ ih =>
    have hc := chooseConstraint_mem hchoose
    have hm := hq.coherent m hr.invariant
    have hlen := hm.len_eq (hm.mem_activeConstraints.mp hc).1
    have hways := waysWithin_recordBranch (s := s.recordNode level)
      ((hr.level_lt hq hc).trans_le hdeep) ((hq.narrow m c hr.invariant hc).trans hwide)
    obtain ⟨missed, hnodes, hnone⟩ := ih (hr.rows hc)
    simp only [waysWithin_recordUpdates, hways, waysWithin_recordNode, nodes_recordUpdates,
      nodes_recordBranch, nodes_recordNode, Task.size, ← hlen] at hnodes
    refine ⟨missed, ?_, hnone⟩
    rw [Task.size]
    omega
  | done => exact ⟨0, rfl, fun _ => rfl⟩
  | next _ _ ihnode ihrows =>
    obtain ⟨missed, hnodes, hnone⟩ := ihnode (hr.head hq)
    obtain ⟨missed', hnodes', hnone'⟩ := ihrows hr.tail
    have hall := hnone rfl
    simp only [waysWithin_recordUpdates, nodes_recordUpdates, Task.size] at hnodes hnodes'
    refine ⟨missed', ?_, hnone'⟩
    rw [Task.size, List.length_cons]
    omega
  | @cut level m h rest s t updates ending _ hend ih =>
    -- the other ways are not gone
    obtain ⟨missed, hnodes, -⟩ := ih (hr.head hq)
    simp only [waysWithin_recordUpdates, nodes_recordUpdates, Task.size] at hnodes
    refine ⟨missed + rest.length, ?_, fun hrun => absurd hrun hend⟩
    rw [Task.size, List.length_cons]
    omega

end Costs

/-! ## What is reported -/

/-- A search counts what it reports in its statistics too. -/
def CountsFound (inner : Descent P σ → Descent P σ × Ending) : Prop :=
  ∀ d, (inner d).1.stats.solutions + d.found = d.stats.solutions + (inner d).1.found

section Reports

variable {inner : Descent P σ → Descent P σ × Ending} {level : Nat} {v : Visitor P σ}

theorem underCover_countsFound (hi : CountsFound inner) (c : ConstraintId) :
    CountsFound (underCover level c inner) := by
  intro d
  have hrun := hi (covering level c d)
  have hsame : (covering level c d).stats.solutions = d.stats.solutions ∧
    (covering level c d).found = d.found := ⟨rfl, rfl⟩
  rwa [hsame.1, hsame.2] at hrun

theorem underChoice_countsFound (hi : CountsFound inner) (h : CellId) :
    CountsFound (underChoice v level h inner) := by
  intro d
  have hrun := hi (choosing v level h d)
  have hsame : (choosing v level h d).stats.solutions = d.stats.solutions ∧
    (choosing v level h d).found = d.found := ⟨rfl, rfl⟩
  rwa [hsame.1, hsame.2] at hrun

theorem tryRows_countsFound (hi : CountsFound inner) (rows : List CellId) :
    CountsFound (tryRows v level inner rows) := by
  induction rows with
  | nil => exact fun _ => rfl
  | cons h rows ih =>
    intro d
    have hone : CountsFound (underChoice v level h inner) := underChoice_countsFound hi h
    have hfirst := hone d
    unfold tryRows
    split
    · next d' heq =>
      rw [heq] at hfirst
      have hrest := ih d'
      dsimp only at hfirst
      omega
    · next d' ending _ heq =>
      rw [heq] at hfirst
      exact hfirst

theorem descend_countsFound (limits : SearchLimits) (v : Visitor P σ) (remaining : Nat) :
    ∀ level, CountsFound (descend limits v remaining level) := by
  induction remaining using Nat.strongRecOn with
  | ind remaining ih =>
    intro level ⟨m, stats, found, state⟩
    unfold descend
    dsimp only
    split
    · exact Nat.add_right_comm stats.solutions 1 found
    · next c _ =>
      split
      · rfl
      · cases remaining with
        | zero => rfl
        | succ remaining =>
          dsimp only
          split
          · rfl
          · have hbelow := ih remaining (Nat.lt_succ_self _) (level + 1)
            exact underCover_countsFound (fun d => tryRows_countsFound hbelow _ d) c
              ⟨m, (stats.recordNode level).recordBranch level (m.len c), found, state⟩

theorem search_found (limits : SearchLimits) (v : Visitor P σ) (m : Matrix P)
    (stats : Statistics) (state : σ) :
    (search limits v m stats state).1.stats.solutions =
      stats.solutions + (search limits v m stats state).1.found := by
  unfold search
  split
  · rfl
  · exact descend_countsFound limits v limits.maxDepth 0 ⟨m, stats, 0, state⟩

end Reports

/-- Every report counts as a solution that is found. -/
theorem play_found (limits : SearchLimits) (v : Visitor P σ) (sights : List (Sight P))
    (found : Nat) (state : σ) :
    (play limits v sights (found, state)).1.1 =
      found + ((played limits v sights (found, state)).filterMap report?).length := by
  induction sights generalizing found state with
  | nil => rfl
  | cons sight sights ih =>
    cases sight with
    | choice level h m => exact ih found (v.onTry state level h m)
    | solution m =>
      have hreport : ∀ rest : List (Sight P × Bool),
          (((.solution m, (v.onSolution state m).2) :: rest).filterMap report?).length =
            (rest.filterMap report?).length + 1 := fun _ => rfl
      simp only [play, played, hreport]
      by_cases hmore : ((v.onSolution state m).2 && goesOn limits (found + 1)) = true
      · simp only [hmore, if_true, ih]
        omega
      · simp only [hmore, Bool.false_eq_true, if_false, List.filterMap_nil, List.length_nil]

theorem found_eq_length_calls (limits : SearchLimits) (v : Visitor P σ) {m : Matrix P}
    (hm : m.Coherent) (stats : Statistics) (state : σ) :
    (search limits v m stats state).1.found = (calls limits v m stats state).length := by
  rcases Nat.eq_zero_or_pos m.constraintCount with hnone | hsome
  · rw [calls, showings_of_none limits v stats state hnone, search, if_pos hnone]
    rfl
  · have hfound := congrArg Prod.fst (search_plays limits v hm hsome stats state).1
    rw [play_found, Nat.zero_add] at hfound
    rw [calls, showings_eq_played limits v stats state hm hsome]
    exact hfound

/-! ## One search after another -/

/-- What a search came to. -/
structure Outcome where
  /-- There was something to search. -/
  entered : Bool
  /-- How many solutions were reported to the visitor. -/
  reports : Nat
  ending : Ending
  deriving DecidableEq, Repr

/-- The search ran to its end, if there was something to search. -/
def Outcome.Complete (o : Outcome) : Prop := o.entered = true → o.ending = .exhausted

instance (o : Outcome) : Decidable o.Complete :=
  inferInstanceAs (Decidable (o.entered = true → o.ending = .exhausted))

/-- What this search comes to. -/
def outcome (limits : SearchLimits) (v : Visitor P σ) (m : Matrix P) (stats : Statistics)
    (state : σ) : Outcome where
  entered := m.constraintCount != 0
  reports := (calls limits v m stats state).length
  ending := (search limits v m stats state).2

/-- Statistics that have been in searches with these outcomes, the last one first, and in nothing
else. -/
inductive Accumulated : List Outcome → Statistics → Prop
  | start : Accumulated [] {}
  | search {P σ : Type} {es : List Entry} {m : Matrix P} {outcomes : List Outcome}
      {stats : Statistics} (limits : SearchLimits) (v : Visitor P σ) (state : σ) :
      Reached es m → Accumulated outcomes stats →
      Accumulated (outcome limits v m stats state :: outcomes)
        (search limits v m stats state).1.stats

section Runs

variable {m : Matrix P} {stats : Statistics}

theorem search_levelled (limits : SearchLimits) (v : Visitor P σ) (hm : m.Coherent) (state : σ)
    (hs : stats.Levelled stats.maxDepth) : (search limits v m stats state).1.stats.Levelled
      (search limits v m stats state).1.stats.maxDepth := by
  by_cases hnone : m.constraintCount = 0
  · rwa [search, if_pos hnone]
  · have hcosts := search_costs limits v hm (Nat.pos_of_ne_zero hnone) stats state
    have hstart : stats.Levelled (max stats.maxDepth 0) := by rwa [Nat.max_zero]
    have hlevels := hcosts.levels (shrinks_by_one m)
      (.root ⟨hm, Nat.le_refl _⟩ (Nat.mul_one _).ge) hstart
    exact hlevels.levelled_maxDepth Nat.one_ne_zero

/-- A search visits a node for itself, if there is something to search, and one for every way that
is branched and not missed. -/
theorem search_nodes (limits : SearchLimits) (v : Visitor P σ) (hm : m.Coherent) (state : σ)
    (hs : stats.Levelled stats.maxDepth) :
    ∃ missed, (search limits v m stats state).1.stats.nodes + missed + stats.ways =
        stats.nodes + (outcome limits v m stats state).entered.toNat +
          (search limits v m stats state).1.stats.ways ∧
      ((outcome limits v m stats state).Complete → missed = 0) := by
  by_cases hnone : m.constraintCount = 0
  · have hentered : (outcome limits v m stats state).entered = false := by simp [outcome, hnone]
    rw [hentered, search, if_pos hnone]
    exact ⟨0, rfl, fun _ => rfl⟩
  · have hentered : (outcome limits v m stats state).entered = true := by simp [outcome, hnone]
    have ht := search_levelled limits v hm state hs
    have hcosts := search_costs limits v hm (Nat.pos_of_ne_zero hnone) stats state
    have hending : (outcome limits v m stats state).Complete →
        (search limits v m stats state).2 = .exhausted := fun hcomplete => hcomplete hentered
    rw [hentered]
    generalize (search limits v m stats state).1.stats = t at ht hcosts
    -- both are counted where there is room for the search and for all that was branched on before
    obtain ⟨missed, hnodes, hmissed⟩ :
        NodesCounted (max m.activeConstraintCount (max stats.maxDepth t.maxDepth))
          (max m.activeCandidateCount (max stats.maxBranching t.maxBranching)) (.node 0 m)
          stats t _ :=
      hcosts.nodes (shrinks_by_one m) (.root ⟨hm, Nat.le_refl _⟩ (Nat.mul_one _).ge)
        (Nat.le_max_left _ _) (Nat.le_max_left _ _)
    rw [hs.waysWithin_eq (by omega) (by omega), ht.waysWithin_eq (by omega) (by omega)] at hnodes
    exact ⟨missed, hnodes, fun hcomplete => hmissed (hending hcomplete)⟩

end Runs

namespace Accumulated

variable {outcomes : List Outcome} {stats : Statistics}

theorem levelled (h : Accumulated outcomes stats) : stats.Levelled stats.maxDepth := by
  induction h with
  | start => exact Statistics.levelled_default
  | search limits v state hm _ ih => exact search_levelled limits v hm.coherent state ih

theorem solutions_eq (h : Accumulated outcomes stats) :
    stats.solutions = (outcomes.map Outcome.reports).sum := by
  induction h with
  | start => rfl
  | search limits v state hm _ ih =>
    rw [search_found, found_eq_length_calls limits v hm.coherent, ih, List.map_cons, List.sum_cons,
      Nat.add_comm]
    rfl

/-- The nodes are those at which the searches begin and those of the ways that were branched. -/
theorem nodes (h : Accumulated outcomes stats) :
    ∃ missed, stats.nodes + missed = outcomes.countP Outcome.entered + stats.ways ∧
      ((∀ o ∈ outcomes, o.Complete) → missed = 0) := by
  induction h with
  | start => exact ⟨0, rfl, fun _ => rfl⟩
  | @search P σ es m outcomes stats limits v state hm hbefore ih =>
    obtain ⟨missed, hnodes, hnone⟩ := ih
    obtain ⟨missed', hnodes', hnone'⟩ := search_nodes limits v hm.coherent state hbefore.levelled
    have hcount : (outcome limits v m stats state :: outcomes).countP Outcome.entered =
        outcomes.countP Outcome.entered + (outcome limits v m stats state).entered.toNat := by
      rw [List.countP_cons]
      cases (outcome limits v m stats state).entered <;> rfl
    refine ⟨missed + missed', by omega, fun hcomplete => ?_⟩
    obtain ⟨hlast, hbefore⟩ := List.forall_mem_cons.mp hcomplete
    rw [hnone hbefore, hnone' hlast]

/-- The counters of statistics agree with each other, whatever searches they have been in: the
updates of the levels with all of them, the levels with what was branched on there, and the widest
with the degrees of that. Every report is counted. There are no more nodes than searches and ways
that were branched, and as many if each search that had something to search ran to its end. -/
theorem balanced (h : Accumulated outcomes stats) :
    stats.Levelled stats.maxDepth ∧ stats.branchedLevels.ncard = stats.maxDepth ∧
      stats.solutions = (outcomes.map Outcome.reports).sum ∧
      stats.nodes ≤ outcomes.countP Outcome.entered + stats.ways ∧
      ((∀ o ∈ outcomes, o.Complete) →
        stats.nodes = outcomes.countP Outcome.entered + stats.ways) := by
  have hlevelled := h.levelled
  obtain ⟨missed, hnodes, hnone⟩ := h.nodes
  refine ⟨hlevelled, ?_, h.solutions_eq, by omega, fun hcomplete => ?_⟩
  · rw [hlevelled.levels, Set.ncard_Iio_nat]
  · have hzero := hnone hcomplete
    omega

end Accumulated

/-! ## A search that fails after one that does not -/

/-- What it costs to find the solution of the sample. -/
def sampleStats : Statistics := (search {} counter Matrix.sample {} 0).1.stats

/-- What it costs to look for it once more, but not deep enough. -/
def shallowStats : Statistics :=
  (search { maxDepth := 1 } counter Matrix.sample sampleStats 0).1.stats

theorem accumulated_sample :
    Accumulated [⟨true, 1, .exhausted⟩] sampleStats ∧
      Accumulated [⟨true, 0, .failed (.depthLimit 1)⟩, ⟨true, 1, .exhausted⟩] shallowStats := by
  have hfound : outcome {} counter Matrix.sample {} 0 = ⟨true, 1, .exhausted⟩ := by decide +kernel
  have hfailed : outcome { maxDepth := 1 } counter Matrix.sample sampleStats 0 =
      ⟨true, 0, .failed (.depthLimit 1)⟩ := by decide +kernel
  have hsample : Accumulated [⟨true, 1, .exhausted⟩] sampleStats :=
    hfound ▸ .search {} counter 0 (.built Matrix.built_sample) .start
  exact ⟨hsample,
    hfailed ▸ .search { maxDepth := 1 } counter 0 (.built Matrix.built_sample) hsample⟩

theorem Accumulated.balanced_sample :
    sampleStats.nodes = 1 + sampleStats.ways ∧
      shallowStats.Levelled 2 ∧ shallowStats.branchedLevels.ncard = 2 ∧
      shallowStats.solutions = 1 ∧ shallowStats.nodes ≤ 2 + shallowStats.ways := by
  obtain ⟨hsample, hshallow⟩ := accumulated_sample
  have hdepth : shallowStats.maxDepth = 2 := by decide +kernel
  obtain ⟨-, -, -, -, hall⟩ := Accumulated.balanced hsample
  obtain ⟨hlevelled, hlevels, hsolutions, hnodes, -⟩ := Accumulated.balanced hshallow
  rw [hdepth] at hlevelled hlevels
  exact ⟨hall (by decide), hlevelled, hlevels, hsolutions, hnodes⟩

end Search

end ExactCover
