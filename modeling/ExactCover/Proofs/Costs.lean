/-
ExactCover.Proofs.Costs — what a search costs.

`Costs` says what can become of the statistics at a node and at the rows of the
constraint that is branched on there, and how that can end. It leaves open when a
visitor breaks off and how many links a cover takes out, and says nothing of the
matrix that is handed back, so that a fact about costs is an induction over it and
not over the search. Every search is such a case (`descend_costs`, `search_costs`).

The first such fact is that costs are bounded. If every choice covers `weight` of the
active constraints and none of these has more than `width` candidates (`Shrinks`),
then a search visits no level beyond the one at which the constraints are used up and
branches no more than `width` ways. So it visits no more nodes than a tree of that
depth and that width has, however large its ceilings are, and it hits a ceiling only
where that is below these two numbers (`Costs.bounded`). Of any matrix that is so when
the active constraints are counted one by one (`search_fits`).
-/
import Mathlib.Tactic.Ring
import ExactCover.Proofs.Enumeration

namespace ExactCover

namespace Search

variable {P σ : Type}

/-! ## What can become of the statistics -/

/-- What a search has before it. -/
inductive Task (P : Type) where
  /-- A node that is to be visited. -/
  | node (level : Nat) (m : Matrix P)
  /-- Cells that are to be chosen at a node, one after another. -/
  | rows (level : Nat) (m : Matrix P) (hs : List CellId)

/-- All that a search can do to its statistics, and how it ends. -/
inductive Costs (limits : SearchLimits) : Task P → Statistics → Statistics → Ending → Prop
  | solution {level : Nat} {m : Matrix P} {s : Statistics} {ending : Ending} :
      chooseConstraint m = none → ending = .exhausted ∨ ending = .stopped →
      Costs limits (.node level m) s (s.recordNode level).recordSolution ending
  | blocked {level : Nat} {m : Matrix P} {s : Statistics} {c : ConstraintId} :
      chooseConstraint m = some c → m.len c = 0 →
      Costs limits (.node level m) s (s.recordNode level) .exhausted
  | deep {level : Nat} {m : Matrix P} {s : Statistics} {c : ConstraintId} :
      chooseConstraint m = some c → m.len c ≠ 0 → level = limits.maxDepth →
      Costs limits (.node level m) s (s.recordNode level)
        (.failed (.depthLimit limits.maxDepth))
  | wide {level : Nat} {m : Matrix P} {s : Statistics} {c : ConstraintId} :
      chooseConstraint m = some c → level < limits.maxDepth → limits.maxBranching < m.len c →
      Costs limits (.node level m) s (s.recordNode level)
        (.failed (.branchLimit level (m.len c) limits.maxBranching))
  | branch {level : Nat} {m : Matrix P} {s t : Statistics} {c : ConstraintId} {updates : Nat}
      {ending : Ending} :
      chooseConstraint m = some c → m.len c ≠ 0 → level < limits.maxDepth →
      m.len c ≤ limits.maxBranching →
      Costs limits (.rows level m (m.column c))
        (((s.recordNode level).recordBranch level (m.len c)).recordUpdates level updates)
        t ending →
      Costs limits (.node level m) s t ending
  | done {level : Nat} {m : Matrix P} {s : Statistics} :
      Costs limits (.rows level m []) s s .exhausted
  | next {level : Nat} {m : Matrix P} {h : CellId} {hs : List CellId} {s t u : Statistics}
      {updates : Nat} {ending : Ending} :
      Costs limits (.node (level + 1) (chosen m h)) (s.recordUpdates level updates) t
        .exhausted →
      Costs limits (.rows level m hs) t u ending →
      Costs limits (.rows level m (h :: hs)) s u ending
  | cut {level : Nat} {m : Matrix P} {h : CellId} {hs : List CellId} {s t : Statistics}
      {updates : Nat} {ending : Ending} :
      Costs limits (.node (level + 1) (chosen m h)) (s.recordUpdates level updates) t ending →
      ending ≠ .exhausted →
      Costs limits (.rows level m (h :: hs)) s t ending

/-- A search from `m` adds to its statistics what this task can cost. -/
def Charges (limits : SearchLimits) (task : Task P) (m : Matrix P)
    (inner : Descent P σ → Descent P σ × Ending) : Prop :=
  ∀ d, d.matrix = m → Costs limits task d.stats (inner d).1.stats (inner d).2

section Charged

variable {limits : SearchLimits} {v : Visitor P σ} {m : Matrix P} {c : ConstraintId}
  {level : Nat} {inner : Descent P σ → Descent P σ × Ending}

theorem tryRows_charges (hm : m.Coherent) (hc : m.HasConstraint c) (hu : m.isCovered c = false)
    {rows : List CellId} (hrows : ∀ h ∈ rows, h ∈ m.column c)
    (hback : ∀ h ∈ rows, HandsBack (chosen m h) inner)
    (hi : ∀ h ∈ rows, Charges limits (.node (level + 1) (chosen m h)) (chosen m h) inner) :
    Charges limits (.rows level m rows) (m.cover c).matrix (tryRows v level inner rows) := by
  induction rows with
  | nil => exact fun _ _ => .done
  | cons h rows ih =>
    intro d hd
    obtain ⟨-, hhc, hopen⟩ := othersOpen_column hm hc hu (hrows h List.mem_cons_self)
    have hbelow := hback h List.mem_cons_self
    rw [← chosen_eq hhc] at hbelow
    have hmatrix := underChoice_matrix level v (hm.cover hc hu) hopen hbelow d hd
    have hchosen : (choosing v level h d).matrix = chosen m h := by
      rw [← chosen_eq hhc, ← hd]
      rfl
    have hfirst := hi h List.mem_cons_self (choosing v level h d) hchosen
    have hrest := ih (fun k hk => hrows k (List.mem_cons_of_mem h hk))
      (fun k hk => hback k (List.mem_cons_of_mem h hk))
      (fun k hk => hi k (List.mem_cons_of_mem h hk))
    unfold tryRows
    split
    · next d' heq =>
      rw [underChoice_eq, Prod.mk.injEq] at heq
      obtain ⟨rfl, hending⟩ := heq
      rw [hending] at hfirst
      exact .next hfirst (hrest _ hmatrix)
    · next d' ending hne heq =>
      rw [underChoice_eq, Prod.mk.injEq] at heq
      obtain ⟨rfl, rfl⟩ := heq
      exact .cut hfirst hne

/-- Below a constraint that is covered a search is charged for its rows. -/
theorem underRows_charges (hm : m.Coherent) (hc : m.HasConstraint c)
    (hu : m.isCovered c = false) (hback : ∀ h ∈ m.column c, HandsBack (chosen m h) inner)
    (hi : ∀ h ∈ m.column c,
      Charges limits (.node (level + 1) (chosen m h)) (chosen m h) inner)
    {d : Descent P σ} (hd : d.matrix = m) :
    ∃ updates, Costs limits (.rows level m (m.column c)) (d.stats.recordUpdates level updates)
      (underCover level c (fun d => tryRows v level inner (d.matrix.column c) d) d).1.stats
      (underCover level c (fun d => tryRows v level inner (d.matrix.column c) d) d).2 := by
  subst hd
  have hrun := tryRows_charges (v := v) hm hc hu (fun _ hh => hh) hback hi
    (covering level c d) rfl
  rw [underCover_eq]
  rw [← hm.column_cover hc hu] at hrun ⊢
  exact ⟨_, hrun⟩

/-- What is left of the levels is what the ceiling allows beyond this one. -/
theorem descend_costs (limits : SearchLimits) (v : Visitor P σ) :
    ∀ (remaining level : Nat) (m : Matrix P), m.Coherent → level + remaining = limits.maxDepth →
      Charges limits (.node level m) m (descend limits v remaining level) := by
  intro remaining
  induction remaining using Nat.strongRecOn with
  | ind remaining ih =>
    intro level m hm hlevel ⟨m', stats, found, state⟩ hd
    obtain rfl : m' = m := hd
    unfold descend
    cases hchoose : chooseConstraint m' with
    | none =>
      -- whether the visitor or the number of solutions stops the search is left open
      exact .solution hchoose (ite_eq_or_eq _ _ _)
    | some c =>
      dsimp only
      by_cases hzero : m'.len c = 0
      · rw [if_pos hzero]
        exact .blocked hchoose hzero
      rw [if_neg hzero]
      cases remaining with
      | zero => exact .deep hchoose hzero hlevel
      | succ remaining =>
        dsimp only
        by_cases hwide : m'.len c > limits.maxBranching
        · rw [if_pos hwide]
          exact .wide hchoose (by omega) hwide
        rw [if_neg hwide]
        obtain ⟨hc, -, hu⟩ := hm.mem_activeConstraints.mp (chooseConstraint_mem hchoose)
        have hbelow : ∀ h ∈ m'.column c, (chosen m' h).Coherent := fun h hh =>
          coherent_chosen hm (othersOpen_column hm hc hu hh).1
        obtain ⟨updates, hrun⟩ := underRows_charges (v := v) hm hc hu
          (fun h hh => descend_matrix limits v remaining _ _ (hbelow h hh))
          (fun h hh => ih remaining (Nat.lt_succ_self _) (level + 1) _ (hbelow h hh) (by omega))
          (d := ⟨m', (stats.recordNode level).recordBranch level (m'.len c), found, state⟩) rfl
        exact .branch hchoose hzero (by omega) (Nat.le_of_not_gt hwide) hrun

theorem search_costs (limits : SearchLimits) (v : Visitor P σ) (hm : m.Coherent)
    (hsome : 0 < m.constraintCount) (stats : Statistics) (state : σ) :
    Costs limits (.node 0 m) stats (search limits v m stats state).1.stats
      (search limits v m stats state).2 := by
  unfold search
  rw [if_neg (Nat.ne_of_gt hsome)]
  exact descend_costs limits v limits.maxDepth 0 m hm (Nat.zero_add _) ⟨m, stats, 0, state⟩ rfl

end Charged

/-! ## Costs are bounded -/

/-- Every choice keeps `Q` and covers at least `weight` of the active constraints, none of which
has more than `width` candidates. -/
structure Shrinks (Q : Matrix P → Prop) (weight width : Nat) : Prop where
  pos : 0 < weight
  coherent : ∀ m, Q m → m.Coherent
  narrow : ∀ m c, Q m → c ∈ m.activeConstraints → m.len c ≤ width
  chosen : ∀ m c h, Q m → c ∈ m.activeConstraints → h ∈ m.column c →
    Q (chosen m h) ∧ (chosen m h).activeConstraintCount + weight ≤ m.activeConstraintCount

namespace Task

/-- The level of the node. -/
def level : Task P → Nat
  | node level _ | rows level _ _ => level

/-- The matrix of the node. -/
def matrix : Task P → Matrix P
  | node _ m | rows _ m _ => m

/-- The cells that are to be chosen have a constraint in common that can be branched on. -/
def Branches : Task P → Prop
  | node _ _ => True
  | rows _ m hs => ∃ c ∈ m.activeConstraints, ∀ h ∈ hs, h ∈ m.column c

/-- How many nodes there are at most, in a tree of this depth and with one way less to branch. -/
def most (depth ways : Nat) : Task P → Nat
  | node level _ => ways ^ (depth - level)
  | rows level _ hs => hs.length * ways ^ (depth - (level + 1))

/-- The active constraints are used up before the search is deeper than this. -/
structure Room (Q : Matrix P → Prop) (weight depth : Nat) (task : Task P) : Prop where
  invariant : Q task.matrix
  branches : task.Branches
  room : task.level * weight + task.matrix.activeConstraintCount ≤ depth * weight

end Task

/-- What is added to the statistics is bounded by the depth and the width of a tree and by its
number of nodes, and a ceiling that is hit is below its depth or its width. -/
structure Bounded (depth width most : Nat) (limits : SearchLimits) (s t : Statistics)
    (ending : Ending) : Prop where
  maxDepth : t.maxDepth ≤ max s.maxDepth depth
  maxBranching : t.maxBranching ≤ max s.maxBranching width
  nodes : t.nodes ≤ s.nodes + most
  depthLimit : ∀ limit, ending = .failed (.depthLimit limit) → limits.maxDepth < depth
  branchLimit : ∀ level degree limit, ending = .failed (.branchLimit level degree limit) →
    level < depth ∧ degree ≤ width ∧ limits.maxBranching < degree

section Bounded

variable {Q : Matrix P → Prop} {weight width depth : Nat} {limits : SearchLimits} {level : Nat}
  {m : Matrix P} {c : ConstraintId} {h : CellId} {hs : List CellId}

namespace Task.Room

/-- A search begins at the first level. -/
theorem root (hm : Q m) (hdepth : m.activeConstraintCount ≤ depth * weight) :
    (node 0 m).Room Q weight depth :=
  ⟨hm, trivial, by simpa [Task.level, Task.matrix] using hdepth⟩

theorem level_le (hq : Shrinks Q weight width) {task : Task P} (hr : task.Room Q weight depth) :
    task.level ≤ depth :=
  Nat.le_of_mul_le_mul_right (Nat.le_trans (Nat.le_add_right _ _) hr.room) hq.pos

/-- A node at which a constraint can be branched on is not as deep as can be. -/
theorem level_lt (hq : Shrinks Q weight width) (hr : (node level m).Room Q weight depth)
    (hc : c ∈ m.activeConstraints) : level < depth := by
  have hpos : 0 < m.activeConstraintCount := by
    rw [(hq.coherent m hr.invariant).activeConstraintCount_eq]
    exact List.length_pos_of_mem hc
  have hroom := hr.room
  refine Nat.lt_of_mul_lt_mul_right (a := weight) ?_
  simp only [Task.level, Task.matrix] at hroom
  omega

theorem rows (hr : (node level m).Room Q weight depth) (hc : c ∈ m.activeConstraints) :
    (rows level m (m.column c)).Room Q weight depth :=
  ⟨hr.invariant, ⟨c, hc, fun _ hh => hh⟩, hr.room⟩

theorem tail (hr : (Task.rows level m (h :: hs)).Room Q weight depth) :
    (Task.rows level m hs).Room Q weight depth := by
  obtain ⟨c, hc, hrows⟩ := hr.branches
  exact ⟨hr.invariant, ⟨c, hc, fun k hk => hrows k (List.mem_cons_of_mem h hk)⟩, hr.room⟩

theorem head (hq : Shrinks Q weight width)
    (hr : (Task.rows level m (h :: hs)).Room Q weight depth) :
    (node (level + 1) (Search.chosen m h)).Room Q weight depth := by
  obtain ⟨c, hc, hrows⟩ := hr.branches
  obtain ⟨hnext, hless⟩ := hq.chosen m c h hr.invariant hc (hrows h List.mem_cons_self)
  have hroom := hr.room
  refine ⟨hnext, trivial, ?_⟩
  simp only [Task.level, Task.matrix] at hroom ⊢
  rw [Nat.succ_mul]
  omega

end Task.Room

/-- A node and the trees below the ways to branch there are no more than a tree. -/
theorem Task.most_rows (hlevel : level < depth) (hhs : hs.length ≤ width) :
    1 + (rows level m hs).most depth (width + 1) ≤ (node level m).most depth (width + 1) := by
  have hdeeper : depth - level = depth - (level + 1) + 1 := by omega
  simp only [most, hdeeper]
  calc 1 + hs.length * (width + 1) ^ (depth - (level + 1))
      ≤ (width + 1) ^ (depth - (level + 1)) + width * (width + 1) ^ (depth - (level + 1)) :=
        Nat.add_le_add (Nat.one_le_pow _ _ (Nat.succ_pos width)) (Nat.mul_le_mul_right _ hhs)
    _ = (width + 1) ^ (depth - (level + 1) + 1) := by
        rw [pow_succ, Nat.mul_succ, Nat.mul_comm width, Nat.add_comm]

namespace Bounded

variable {s t u : Statistics} {ending : Ending} {a b : Nat}

theorem refl (s : Statistics) : Bounded depth width 0 limits s s .exhausted where
  maxDepth := Nat.le_max_left _ _
  maxBranching := Nat.le_max_left _ _
  nodes := Nat.le_refl _
  depthLimit := nofun
  branchLimit := nofun

theorem trans {first : Ending} (h : Bounded depth width a limits s t first)
    (h' : Bounded depth width b limits t u ending) :
    Bounded depth width (a + b) limits s u ending where
  maxDepth := h'.maxDepth.trans (max_le h.maxDepth (Nat.le_max_right _ _))
  maxBranching := h'.maxBranching.trans (max_le h.maxBranching (Nat.le_max_right _ _))
  nodes := by
    have hfirst := h.nodes
    have hsecond := h'.nodes
    omega
  depthLimit := h'.depthLimit
  branchLimit := h'.branchLimit

theorem mono (h : Bounded depth width a limits s t ending) (hab : a ≤ b) :
    Bounded depth width b limits s t ending :=
  { h with nodes := h.nodes.trans (Nat.add_le_add_left hab _) }

/-- Counting updates is no matter. -/
theorem of_recordUpdates {updates : Nat}
    (h : Bounded depth width a limits (s.recordUpdates level updates) t ending) :
    Bounded depth width a limits s t ending :=
  ⟨h.maxDepth, h.maxBranching, h.nodes, h.depthLimit, h.branchLimit⟩

theorem recordNode (hlevel : level ≤ depth)
    (hdepth : ∀ limit, ending = .failed (.depthLimit limit) → limits.maxDepth < depth)
    (hbranch : ∀ level degree limit, ending = .failed (.branchLimit level degree limit) →
      level < depth ∧ degree ≤ width ∧ limits.maxBranching < degree) :
    Bounded depth width 1 limits s (s.recordNode level) ending where
  maxDepth := max_le_max (Nat.le_refl _) hlevel
  maxBranching := Nat.le_max_left _ _
  nodes := Nat.le_refl _
  depthLimit := hdepth
  branchLimit := hbranch

theorem recordBranch {degree : Nat} (hdegree : degree ≤ width) :
    Bounded depth width 0 limits s (s.recordBranch level degree) .exhausted where
  maxDepth := Nat.le_max_left _ _
  maxBranching := max_le_max (Nat.le_refl _) hdegree
  nodes := Nat.le_refl _
  depthLimit := nofun
  branchLimit := nofun

end Bounded

/-- A search costs no more than the tree that its matrix allows. -/
theorem Costs.bounded (hq : Shrinks Q weight width) {task : Task P} {s t : Statistics}
    {ending : Ending} (h : Costs limits task s t ending) (hr : task.Room Q weight depth) :
    Bounded depth width (task.most depth (width + 1)) limits s t ending := by
  have htree : ∀ (level : Nat) (m : Matrix P), 1 ≤ (Task.node level m).most depth (width + 1) :=
    fun level _ => Nat.one_le_pow _ _ (Nat.succ_pos width)
  induction h with
  | @solution level m s ending hchoose hending =>
    have hvisit : Bounded depth width 1 limits s (s.recordNode level) ending := by
      refine .recordNode (hr.level_le hq) ?_ ?_
      all_goals rcases hending with rfl | rfl <;> nofun
    -- the number of solutions is not bounded
    exact ⟨hvisit.maxDepth, hvisit.maxBranching, (hvisit.mono (htree level m)).nodes,
      hvisit.depthLimit, hvisit.branchLimit⟩
  | blocked hchoose hzero => exact .mono (.recordNode (hr.level_le hq) nofun nofun) (htree _ _)
  | deep hchoose hsome hlevel =>
    have hless := hr.level_lt hq (chooseConstraint_mem hchoose)
    exact .mono (.recordNode (hr.level_le hq) (fun _ _ => hlevel ▸ hless) nofun) (htree _ _)
  | @wide level m s c hchoose hlevel hwide =>
    have hc := chooseConstraint_mem hchoose
    have hless := hr.level_lt hq hc
    have hnarrow := hq.narrow m c hr.invariant hc
    refine .mono (.recordNode (hr.level_le hq) nofun fun deep degree limit he => ?_) (htree level m)
    cases he
    exact ⟨hless, hnarrow, hwide⟩
  | @branch level m s t c updates ending hchoose hsome hlevel hdegree _ ih =>
    have hc := chooseConstraint_mem hchoose
    have hnarrow := hq.narrow m c hr.invariant hc
    have hm := hq.coherent m hr.invariant
    have hlen := hm.len_eq (hm.mem_activeConstraints.mp hc).1
    have hnode : Bounded depth width 1 limits s (s.recordNode level) .exhausted :=
      .recordNode (hr.level_le hq) nofun nofun
    have hrows := (ih (hr.rows hc)).of_recordUpdates
    have hmost := Task.most_rows (m := m) (hr.level_lt hq hc) (hlen ▸ hnarrow)
    exact (hnode.trans ((Bounded.recordBranch hnarrow).trans hrows)).mono (by omega)
  | done => exact (Bounded.refl _).mono (Nat.zero_le _)
  | @next level m h hs s t u updates ending _ _ ihnode ihrows =>
    refine ((ihnode (hr.head hq)).of_recordUpdates.trans (ihrows hr.tail)).mono ?_
    simp only [Task.most, List.length_cons]
    rw [Nat.succ_mul, Nat.add_comm]
  | @cut level m h hs s t updates ending _ _ ih =>
    refine (ih (hr.head hq)).of_recordUpdates.mono ?_
    simp only [Task.most, List.length_cons]
    exact Nat.le_mul_of_pos_left _ (Nat.succ_pos _)

end Bounded

/-- What a search comes to is no larger than a tree of this depth and this width. -/
def FitsTree (depth width : Nat) (limits : SearchLimits) (stats : Statistics)
    (out : Descent P σ × Ending) : Prop :=
  Bounded depth width ((width + 1) ^ depth) limits stats out.1.stats out.2

/-- A search fits into a tree with room for its constraints, also when there are none. -/
theorem search_fits_of {Q : Matrix P → Prop} {weight width depth : Nat} {m : Matrix P}
    (hq : Shrinks Q weight width) (hm : Q m) (hdepth : m.activeConstraintCount ≤ depth * weight)
    (limits : SearchLimits) (v : Visitor P σ) (stats : Statistics) (state : σ) :
    FitsTree depth width limits stats (search limits v m stats state) := by
  by_cases hnone : m.constraintCount = 0
  · rw [search, if_pos hnone]
    refine ⟨Nat.le_max_left _ _, Nat.le_max_left _ _, Nat.le_add_right _ _, ?_, ?_⟩
    · intro limit hending
      cases hending
    · intro level degree limit hending
      cases hending
  · have hcosts := search_costs limits v (hq.coherent m hm) (Nat.pos_of_ne_zero hnone) stats state
    exact hcosts.bounded hq (.root hm hdepth)

/-- Every choice covers the constraint that is branched on at least, and no candidate is back. -/
theorem shrinks_by_one (m : Matrix P) :
    Shrinks (fun n : Matrix P => n.Coherent ∧ n.activeCandidateCount ≤ m.activeCandidateCount) 1
      m.activeCandidateCount where
  pos := Nat.one_pos
  coherent := fun _ hn => hn.1
  narrow := fun _ _ hn hc => (hn.1.len_le_activeCandidateCount hc).trans hn.2
  chosen := by
    intro n c h hn hc hh
    obtain ⟨-, ha, -⟩ := row_facts hn.1 hc hh
    exact ⟨⟨coherent_chosen hn.1 ha, (activeCandidateCount_chosen hn.1 ha).trans hn.2⟩,
      activeConstraintCount_chosen hn.1 hc hh⟩

/-- A search goes no deeper than there are active constraints and branches no wider than there are
active candidates. -/
theorem search_fits {m : Matrix P} (hm : m.Coherent) (limits : SearchLimits)
    (v : Visitor P σ) (stats : Statistics) (state : σ) :
    FitsTree m.activeConstraintCount m.activeCandidateCount limits stats
      (search limits v m stats state) :=
  search_fits_of (shrinks_by_one m) ⟨hm, Nat.le_refl _⟩ (Nat.mul_one _).ge limits v stats state

end Search

end ExactCover
