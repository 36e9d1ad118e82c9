/-
ExactCover.Proofs.Truncation — what the limits of a search cut off.

`walk` is the depth-first traversal without any limits: the list of all nodes of the
search tree, in order. A node `exceeds?` the ceilings of a search if there is something
to branch on in it, but it is too deep or branches too many ways. With ceilings, a search
goes through the walk up to the first such node (`Search.visits_cuts`, by induction over
the tree), and apart from that nothing is left out.

What a visitor and a number of solutions cut off is said by `Hears`: the solutions are
reported one after another, until an answer or the number of reports puts an end to it
(`Search.hears_played`). Both together are what a search reports (`Truncated`).
-/
import Mathlib.Data.List.TakeWhile
import ExactCover.Proofs.Counting

namespace ExactCover

/-! ## The walk -/

/-- A node of the search tree. -/
structure Node (P : Type) where
  /-- How many candidates have been chosen. -/
  level : Nat
  matrix : Matrix P

namespace Node

variable {P : Type}

/-- The matrix of a node where nothing is left to satisfy. -/
def solution? (n : Node P) : Option (Matrix P) :=
  match Search.chooseConstraint n.matrix with
  | none => some n.matrix
  | some _ => none

/-- What is wrong with a node under some ceilings: the constraint that would be branched on has
candidates, but the node is too deep or the candidates are too many. -/
def exceeds? (limits : SearchLimits) (n : Node P) : Option SearchError :=
  match Search.chooseConstraint n.matrix with
  | none => none
  | some c =>
    let degree := n.matrix.len c
    if degree = 0 then none
    else if limits.maxDepth ≤ n.level then some (.depthLimit limits.maxDepth)
    else if limits.maxBranching < degree then
      some (.branchLimit n.level degree limits.maxBranching)
    else none

end Node

namespace Search

variable {P σ : Type}

/-- The nodes of the search tree below a node, depth first, when at most `k` more candidates can be
chosen. -/
def walk : Nat → Nat → Matrix P → List (Node P)
  | k, level, m =>
    ⟨level, m⟩ ::
      match chooseConstraint m with
      | none => []
      | some c =>
        match k with
        | 0 => []
        | k + 1 => (m.column c).flatMap fun h => walk k (level + 1) (chosen m h)

/-- The nodes of the whole search tree. Every choice uses up an active constraint. -/
def traversal (m : Matrix P) : List (Node P) := walk m.activeConstraintCount 0 m

/-- The solutions that are reported when nothing is cut off. -/
def solutions (m : Matrix P) : List (Matrix P) := (traversal m).filterMap Node.solution?

/-- The nodes before the first one that exceeds the ceilings. -/
def within (limits : SearchLimits) (ns : List (Node P)) : List (Node P) :=
  ns.takeWhile fun n => (n.exceeds? limits).isNone

/-- How a search ends that finds this wrong. -/
def endingOf : Option SearchError → Ending
  | none => .exhausted
  | some e => .failed e

@[simp] theorem error?_endingOf (found : Option SearchError) : (endingOf found).error? = found := by
  cases found <;> rfl

theorem endingOf_ne_stopped (found : Option SearchError) : endingOf found ≠ .stopped := by
  cases found <;> nofun

section Walk

variable {m : Matrix P} {k level : Nat} {c : ConstraintId} {limits : SearchLimits}

theorem walk_none (hchoose : chooseConstraint m = none) : walk k level m = [⟨level, m⟩] := by
  unfold walk
  rw [hchoose]

theorem walk_succ (hchoose : chooseConstraint m = some c) :
    walk (k + 1) level m =
      ⟨level, m⟩ :: (m.column c).flatMap fun h => walk k (level + 1) (chosen m h) := by
  conv_lhs => unfold walk
  rw [hchoose]

theorem solution?_none (hchoose : chooseConstraint m = none) :
    (Node.mk level m).solution? = some m := by
  simp only [Node.solution?, hchoose]

theorem solution?_some (hchoose : chooseConstraint m = some c) :
    (Node.mk level m).solution? = none := by
  simp only [Node.solution?, hchoose]

theorem exceeds?_none (hchoose : chooseConstraint m = none) :
    (Node.mk level m).exceeds? limits = none := by
  simp only [Node.exceeds?, hchoose]

/-- A node where there is something to branch on is within the ceilings if it is neither too deep
nor too wide. -/
theorem exceeds?_eq_none_iff (hchoose : chooseConstraint m = some c) :
    (Node.mk level m).exceeds? limits = none ↔
      m.len c = 0 ∨ level < limits.maxDepth ∧ m.len c ≤ limits.maxBranching := by
  simp only [Node.exceeds?, hchoose]
  by_cases hzero : m.len c = 0
  · simp [hzero]
  · by_cases hdeep : limits.maxDepth ≤ level
    · simp [hzero, hdeep]
    · by_cases hwide : limits.maxBranching < m.len c
      · simp [hzero, hdeep, hwide]
      · simp [hzero, hdeep, hwide]
        omega

end Walk

/-! ## What the ceilings cut off -/

/-- Some nodes are shown as far as the ceilings allow. -/
structure Cuts (limits : SearchLimits) (out : List (Sight P) × Ending) (ns : List (Node P)) :
    Prop where
  shown : out.1.filterMap Sight.solution? = (within limits ns).filterMap Node.solution?
  ending : out.2 = endingOf (ns.findSome? (Node.exceeds? limits))

section Cuts

variable {m : Matrix P} {k level remaining : Nat} {c : ConstraintId} {limits : SearchLimits}
  {e : SearchError} {n : Node P} {ns ms : List (Node P)}

theorem within_of_none (h : ns.findSome? (Node.exceeds? limits) = none) :
    within limits ns = ns := by
  rw [List.findSome?_eq_none_iff] at h
  rw [within, List.takeWhile_eq_self_iff]
  intro n hn
  simp [h n hn]

theorem within_append_of_some (h : ns.findSome? (Node.exceeds? limits) = some e) :
    within limits (ns ++ ms) = within limits ns := by
  induction ns with
  | nil => cases h
  | cons n ns ih =>
    cases hn : n.exceeds? limits with
    | none =>
      rw [List.findSome?_cons, hn] at h
      simp only [within, List.cons_append, List.takeWhile_cons, hn, Option.isNone_none, if_true]
      exact congrArg (n :: ·) (ih h)
    | some e => simp [within, hn]

/-- Nodes that are gone through, and then others. -/
theorem Cuts.append {seen more : List (Sight P)} {ending : Ending}
    (h : Cuts limits (seen, .exhausted) ns) (h' : Cuts limits (more, ending) ms) :
    Cuts limits (seen ++ more, ending) (ns ++ ms) := by
  have hnone : ns.findSome? (Node.exceeds? limits) = none := by
    rw [← error?_endingOf (ns.findSome? _), ← h.ending]
    rfl
  have hall := List.findSome?_eq_none_iff.mp hnone
  refine ⟨?_, ?_⟩
  · have hwithin : within limits (ns ++ ms) = ns ++ within limits ms :=
      List.takeWhile_append_of_pos fun n hn => by rw [hall n hn]; rfl
    rw [hwithin, List.filterMap_append, List.filterMap_append, ← h'.shown]
    exact congrArg (· ++ _) (h.shown.trans (by rw [within_of_none hnone]))
  · rw [List.findSome?_append, hnone]
    exact h'.ending

/-- Nothing is seen behind a node that exceeds the ceilings. -/
theorem Cuts.append_failed {seen : List (Sight P)} (h : Cuts limits (seen, .failed e) ns) :
    Cuts limits (seen, .failed e) (ns ++ ms) := by
  have hsome : ns.findSome? (Node.exceeds? limits) = some e := by
    rw [← error?_endingOf (ns.findSome? _), ← h.ending]
    rfl
  refine ⟨?_, ?_⟩
  · rw [within_append_of_some hsome]
    exact h.shown
  · rw [List.findSome?_append, hsome]
    rfl

/-- What is shown below rows is what is shown below one after another. -/
theorem visitRows_cuts {inner : Matrix P → List (Sight P) × Ending} {rows : List CellId}
    {below : CellId → List (Node P)}
    (hi : ∀ h ∈ rows, Cuts limits (inner ((m.coverRow h).matrix.pushSolution h)) (below h)) :
    Cuts limits (visitRows level inner m rows) (rows.flatMap below) := by
  induction rows with
  | nil => exact ⟨rfl, rfl⟩
  | cons h rows ih =>
    have hfirst := hi h List.mem_cons_self
    have hrest := ih fun k hk => hi k (List.mem_cons_of_mem h hk)
    unfold visitRows
    rw [List.flatMap_cons]
    dsimp only
    generalize inner ((m.coverRow h).matrix.pushSolution h) = out at hfirst
    obtain ⟨seen, ending⟩ := out
    have hchoice : Cuts limits
        (.choice level h ((m.coverRow h).matrix.pushSolution h) :: seen, ending) (below h) :=
      ⟨hfirst.shown, hfirst.ending⟩
    cases ending with
    | exhausted => exact hchoice.append hrest
    | failed e => exact hchoice.append_failed
    | stopped => exact absurd hfirst.ending.symm (endingOf_ne_stopped _)

theorem visits_none (hchoose : chooseConstraint m = none) :
    visits limits remaining level m = ([.solution m], .exhausted) := by
  unfold visits
  simp only [hchoose]

/-- A node that exceeds the ceilings shows nothing. -/
theorem visits_exceeds (hlevel : level + remaining = limits.maxDepth)
    (he : (Node.mk level m).exceeds? limits = some e) :
    visits limits remaining level m = ([], .failed e) := by
  cases hchoose : chooseConstraint m with
  | none =>
    rw [exceeds?_none hchoose] at he
    cases he
  | some c =>
    simp only [Node.exceeds?, hchoose] at he
    unfold visits
    simp only [hchoose]
    by_cases hzero : m.len c = 0
    · rw [if_pos hzero] at he
      cases he
    · rw [if_neg hzero] at he ⊢
      cases remaining with
      | zero =>
        rw [if_pos (by omega)] at he
        cases he
        rfl
      | succ remaining =>
        rw [if_neg (by omega)] at he
        by_cases hwide : limits.maxBranching < m.len c
        · rw [if_pos hwide] at he
          cases he
          exact if_pos hwide
        · rw [if_neg hwide] at he
          cases he

/-- A node within the ceilings shows what is below its rows. -/
theorem visits_within (hm : m.Coherent) (hlevel : level + remaining = limits.maxDepth)
    (hchoose : chooseConstraint m = some c)
    (he : (Node.mk level m).exceeds? limits = none) :
    visits limits remaining level m =
      visitRows level (visits limits (remaining - 1) (level + 1)) (m.cover c).matrix
        (m.column c) := by
  have hlen := hm.len_eq (hm.mem_activeConstraints.mp (chooseConstraint_mem hchoose)).1
  rw [exceeds?_eq_none_iff hchoose] at he
  conv_lhs => unfold visits
  simp only [hchoose]
  by_cases hzero : m.len c = 0
  · rw [if_pos hzero, List.length_eq_zero_iff.mp (hlen.symm.trans hzero)]
    rfl
  · obtain ⟨hdeep, hwide⟩ := he.resolve_left hzero
    rw [if_neg hzero]
    cases remaining with
    | zero => omega
    | succ remaining => exact if_neg (Nat.not_lt.mpr hwide)

theorem visits_cuts_leaf (hchoose : chooseConstraint m = none) :
    Cuts limits (visits limits remaining level m) (walk k level m) := by
  have hwithin : (Node.mk level m).exceeds? limits = none := exceeds?_none hchoose
  rw [visits_none hchoose, walk_none hchoose]
  constructor
  · simp [within, hwithin, solution?_none hchoose, Sight.solution?]
  · simp [hwithin, endingOf]

/-- With ceilings, a search shows the solutions of the walk up to the first node that exceeds them,
and this node is why it fails. -/
theorem visits_cuts (hm : m.Coherent) (hk : m.activeConstraintCount ≤ k)
    (hlevel : level + remaining = limits.maxDepth) :
    Cuts limits (visits limits remaining level m) (walk k level m) := by
  induction k generalizing level remaining m with
  | zero => exact visits_cuts_leaf (chooseConstraint_none_of_count hm hk)
  | succ k ih =>
    cases hchoose : chooseConstraint m with
    | none => exact visits_cuts_leaf hchoose
    | some c =>
      rw [walk_succ hchoose]
      cases he : (Node.mk level m).exceeds? limits with
      | some e =>
        rw [visits_exceeds hlevel he]
        constructor
        · simp [within, he]
        · simp [he, endingOf]
      | none =>
        rw [visits_within hm hlevel hchoose he]
        have hc := chooseConstraint_mem hchoose
        have hbelow : Cuts limits
            (visitRows level (visits limits (remaining - 1) (level + 1)) (m.cover c).matrix
              (m.column c))
            ((m.column c).flatMap fun h => walk k (level + 1) (chosen m h)) := by
          refine visitRows_cuts fun h hh => ?_
          obtain ⟨hhc, ha, -⟩ := row_facts hm hc hh
          have hless := activeConstraintCount_chosen hm hc hh
          -- the constraint has a candidate, so the node is not too deep
          have hlen : m.len c ≠ 0 := by
            rw [hm.len_eq (hm.mem_activeConstraints.mp hc).1]
            exact Nat.ne_of_gt (List.length_pos_of_mem hh)
          have hdeep := (((exceeds?_eq_none_iff hchoose).mp he).resolve_left hlen).1
          rw [chosen_eq hhc]
          exact ih (coherent_chosen hm ha) (by omega) (by omega)
        constructor
        · simpa [within, he, solution?_some hchoose] using hbelow.shown
        · simpa [he] using hbelow.ending

end Cuts

/-! ## What the visitor and the number of solutions cut off -/

/-- Solutions that are reported one after another, each with the answer of the visitor, when so many
have been reported before; and whether it was gone through all of them. -/
inductive Hears (limits : SearchLimits) :
    Nat → List (Matrix P) → List (Matrix P × Bool) → Bool → Prop
  | nil {found : Nat} : Hears limits found [] [] true
  | next {found : Nat} {m : Matrix P} {ms : List (Matrix P)} {calls : List (Matrix P × Bool)}
      {gone : Bool} :
      goesOn limits (found + 1) = true → Hears limits (found + 1) ms calls gone →
      Hears limits found (m :: ms) ((m, true) :: calls) gone
  | last {found : Nat} {m : Matrix P} {ms : List (Matrix P)} {answer : Bool} :
      (answer && goesOn limits (found + 1)) = false →
      Hears limits found (m :: ms) [(m, answer)] false

section Hears

variable {limits : SearchLimits} {found : Nat} {ms : List (Matrix P)}
  {calls : List (Matrix P × Bool)} {gone : Bool}

theorem Hears.is_prefix (h : Hears limits found ms calls gone) : calls.map (·.1) <+: ms := by
  induction h with
  | nil => exact List.prefix_refl []
  | next _ _ ih => exact List.cons_prefix_cons.mpr ⟨rfl, ih⟩
  | last _ => exact List.cons_prefix_cons.mpr ⟨rfl, List.nil_prefix⟩

/-- Where nothing put an end to it, everything is reported and every answer was to go on. -/
theorem Hears.all (h : Hears limits found ms calls gone) (hgone : gone = true) :
    calls.map (·.1) = ms ∧ (∀ call ∈ calls, call.2 = true) ∧
      (calls = [] ∨ goesOn limits (found + calls.length) = true) := by
  induction h with
  | nil => exact ⟨rfl, by simp, Or.inl rfl⟩
  | @next found m ms calls gone hgo _ ih =>
    obtain ⟨hreported, hanswers, hmore⟩ := ih hgone
    refine ⟨congrArg (m :: ·) hreported, List.forall_mem_cons.mpr ⟨rfl, hanswers⟩, Or.inr ?_⟩
    rcases hmore with rfl | hmore
    · exact hgo
    · have hnumber : found + (calls.length + 1) = found + 1 + calls.length := by omega
      rwa [List.length_cons, hnumber]
  | last _ => cases hgone

/-- The report after which it is not to go on is the last one. -/
theorem Hears.stop (h : Hears limits found ms calls gone) {i : Nat} {call : Matrix P × Bool}
    (hcall : calls[i]? = some call)
    (hstop : (call.2 && goesOn limits (found + (i + 1))) = false) :
    calls.length = i + 1 ∧ gone = false := by
  induction h generalizing i with
  | nil => cases hcall
  | @next found m ms calls gone hgo _ ih =>
    cases i with
    | zero =>
      cases hcall
      rw [hgo] at hstop
      cases hstop
    | succ i =>
      have hnumber : found + (i + 1 + 1) = found + 1 + (i + 1) := by omega
      rw [hnumber] at hstop
      obtain ⟨hlength, hgone⟩ := ih hcall hstop
      exact ⟨by rw [List.length_cons, hlength], hgone⟩
  | last _ =>
    cases i with
    | zero => exact ⟨rfl, rfl⟩
    | succ i => cases hcall

/-- If something put an end to it, that was the last answer or the number of reports. -/
theorem Hears.stopped (h : Hears limits found ms calls gone) (hgone : gone = false) :
    ∃ call, calls.getLast? = some call ∧
      (call.2 && goesOn limits (found + calls.length)) = false := by
  induction h with
  | nil => cases hgone
  | @next found m ms calls gone _ _ ih =>
    obtain ⟨call, hlast, hstop⟩ := ih hgone
    have hnumber : found + (calls.length + 1) = found + 1 + calls.length := by omega
    refine ⟨call, by simp [List.getLast?_cons, hlast], ?_⟩
    rwa [List.length_cons, hnumber]
  | @last found m ms answer hstop => exact ⟨(m, answer), rfl, hstop⟩

end Hears

/-! ## What is reported -/

/-- A solution that is shown, with the answer. -/
def report? (showing : Sight P × Bool) : Option (Matrix P × Bool) :=
  showing.1.solution?.map (·, showing.2)

/-- The solutions that a search reports to its visitor, with the answers. -/
def calls (limits : SearchLimits) (v : Visitor P σ) (m : Matrix P) (stats : Statistics)
    (state : σ) : List (Matrix P × Bool) :=
  (showings limits v m stats state).filterMap report?

/-- Of what is played to a visitor, it hears the solutions. -/
theorem hears_played (limits : SearchLimits) (v : Visitor P σ) (sights : List (Sight P))
    (found : Nat) (state : σ) :
    Hears limits found (sights.filterMap Sight.solution?)
      ((played limits v sights (found, state)).filterMap report?)
      (play limits v sights (found, state)).2 := by
  induction sights generalizing found state with
  | nil => exact .nil
  | cons sight sights ih =>
    cases sight with
    | choice level h m => exact ih found (v.onTry state level h m)
    | solution m =>
      generalize hsee : v.onSolution state m = seen
      obtain ⟨next, answer⟩ := seen
      cases hmore : (answer && goesOn limits (found + 1)) with
      | false =>
        simp only [play, played, hsee, hmore]
        exact .last hmore
      | true =>
        obtain ⟨rfl, hgo⟩ := Bool.and_eq_true_iff.mp hmore
        simp only [play, played, hsee, hmore, if_true]
        exact .next hgo (ih (found + 1) next)

/-- The visitor of a search hears of the walk as far as the ceilings allow, and the search ends as
they say unless something put an end to the play. -/
theorem search_hears (limits : SearchLimits) (v : Visitor P σ) {m : Matrix P} (hm : m.Coherent)
    (hsome : 0 < m.constraintCount) (stats : Statistics) (state : σ) :
    Hears limits 0 ((within limits (traversal m)).filterMap Node.solution?)
        (calls limits v m stats state)
        (play limits v (visits limits limits.maxDepth 0 m).1 (0, state)).2 ∧
      (search limits v m stats state).2 =
        endingAfter (play limits v (visits limits limits.maxDepth 0 m).1 (0, state)).2
          (endingOf ((traversal m).findSome? (Node.exceeds? limits))) := by
  have hcuts : Cuts limits (visits limits limits.maxDepth 0 m) (traversal m) :=
    visits_cuts hm (Nat.le_refl _) (Nat.zero_add _)
  constructor
  · rw [calls, showings_eq_played limits v stats state hm hsome, ← hcuts.shown]
    exact hears_played limits v _ 0 state
  · rw [(search_plays limits v hm hsome stats state).2, hcuts.ending]

end Search

/-- What limits do to the solutions of a matrix: this is what is reported of them, with the answers,
and how the search ends. -/
structure Truncated {P : Type} (limits : SearchLimits) (m : Matrix P)
    (calls : List (Matrix P × Bool)) (ending : Ending) : Prop where
  is_prefix : calls.map (·.1) <+: Search.solutions m
  /-- An answer to break off, or the last solution that is asked for, ends the search at once. -/
  stop : ∀ i call, calls[i]? = some call →
    call.2 = false ∨ limits.maxSolutions = some (i + 1) →
    calls.length = i + 1 ∧ ending = .stopped
  /-- Nothing else stops it. -/
  stopped : ending = .stopped → ∃ call, calls.getLast? = some call ∧
    (call.2 = false ∨ limits.maxSolutions = some calls.length)
  /-- A search that does not fail and that nothing stops reports every solution. -/
  complete : ending.error? = none → (∀ call ∈ calls, call.2 = true) →
    (∀ n, limits.maxSolutions = some n → calls.length < n) →
    calls.map (·.1) = Search.solutions m
  /-- A search fails, without having been stopped, at the first node that exceeds the ceilings, and
  it has reported the solutions before it and nothing else. -/
  failed : ∀ e, ending = .failed e →
    (∀ call ∈ calls, call.2 = true) ∧
    (∀ n, limits.maxSolutions = some n → calls.length < n) ∧
    ∃ before node after, Search.traversal m = before ++ node :: after ∧
      (∀ b ∈ before, b.exceeds? limits = none) ∧ node.exceeds? limits = some e ∧
      calls.map (·.1) = before.filterMap Node.solution?

namespace Search

variable {P σ : Type} {limits : SearchLimits} {m : Matrix P} {calls : List (Matrix P × Bool)}

theorem goesOn_eq_false_iff {found : Nat} :
    goesOn limits found = false ↔ ∃ n, limits.maxSolutions = some n ∧ n ≤ found := by
  unfold goesOn
  cases limits.maxSolutions with
  | none => simp
  | some most => simp

/-- Before the first node that exceeds the ceilings, all nodes are within them. -/
theorem within_of_split {ns before after : List (Node P)} {node : Node P} {e : SearchError}
    (hns : ns = before ++ node :: after) (hbefore : ∀ b ∈ before, b.exceeds? limits = none)
    (hnode : node.exceeds? limits = some e) : within limits ns = before := by
  have hpass : ∀ b ∈ before, (b.exceeds? limits).isNone = true := fun b hb => by simp [hbefore b hb]
  rw [hns, within, List.takeWhile_append_of_pos hpass]
  simp [hnode]

/-- No more solutions are reported than are asked for. -/
theorem Hears.length_eq {ms : List (Matrix P)} {gone : Bool} (h : Hears limits 0 ms calls gone)
    {n : Nat} (hlimit : limits.maxSolutions = some n) (hpos : n ≠ 0) (hle : n ≤ calls.length) :
    calls.length = n := by
  obtain ⟨i, rfl⟩ := Nat.exists_eq_succ_of_ne_zero hpos
  have hcall : calls[i]? = some calls[i] := List.getElem?_eq_getElem hle
  have hgo : goesOn limits (0 + (i + 1)) = false :=
    goesOn_eq_false_iff.mpr ⟨i + 1, hlimit, by omega⟩
  exact (h.stop hcall (by rw [hgo, Bool.and_false])).1

/-- What is heard of the walk, as far as the ceilings allow, is what the limits leave of it. -/
theorem Hears.truncated {gone : Bool} (hcap : limits.maxSolutions ≠ some 0)
    (h : Hears limits 0 ((within limits (traversal m)).filterMap Node.solution?) calls gone) :
    Truncated limits m calls
      (endingAfter gone (endingOf ((traversal m).findSome? (Node.exceeds? limits)))) where
  is_prefix := h.is_prefix.trans ((List.takeWhile_prefix _).filterMap _)
  stop i call hcall hwhy := by
    have hstop : (call.2 && goesOn limits (0 + (i + 1))) = false := by
      rcases hwhy with hbreak | hlimit
      · rw [hbreak, Bool.false_and]
      · rw [goesOn_eq_false_iff.mpr ⟨i + 1, hlimit, by omega⟩, Bool.and_false]
    obtain ⟨hlength, rfl⟩ := h.stop hcall hstop
    exact ⟨hlength, rfl⟩
  stopped hending := by
    cases gone with
    | true => exact absurd hending (endingOf_ne_stopped _)
    | false =>
      obtain ⟨call, hlast, hstop⟩ := h.stopped rfl
      refine ⟨call, hlast, ?_⟩
      rcases Bool.and_eq_false_iff.mp hstop with hbreak | hgo
      · exact Or.inl hbreak
      · obtain ⟨n, hlimit, hle⟩ := goesOn_eq_false_iff.mp hgo
        have hpos : n ≠ 0 := fun hzero => hcap (hzero ▸ hlimit)
        rw [h.length_eq hlimit hpos (by omega)]
        exact Or.inr hlimit
  complete hok hanswers hfewer := by
    cases gone with
    | true =>
      have hnone : (traversal m).findSome? (Node.exceeds? limits) = none := by
        rwa [endingAfter_true, error?_endingOf] at hok
      rw [(h.all rfl).1, within_of_none hnone]
      rfl
    | false =>
      obtain ⟨call, hlast, hstop⟩ := h.stopped rfl
      rw [hanswers call (List.mem_of_getLast? hlast), Bool.true_and] at hstop
      obtain ⟨n, hlimit, hle⟩ := goesOn_eq_false_iff.mp hstop
      have hlt := hfewer n hlimit
      omega
  failed e hending := by
    cases gone with
    | false => cases hending
    | true =>
      have hsome : (traversal m).findSome? (Node.exceeds? limits) = some e := by
        rw [← error?_endingOf ((traversal m).findSome? _)]
        exact congrArg Ending.error? hending
      obtain ⟨before, node, after, hsplit, hnode, hbefore⟩ := List.findSome?_eq_some_iff.mp hsome
      obtain ⟨hreported, hanswers, hmore⟩ := h.all rfl
      refine ⟨hanswers, fun n hlimit => ?_, before, node, after, hsplit, hbefore, hnode, ?_⟩
      · by_contra hge
        rcases hmore with rfl | hgo
        · exact hcap (by rwa [Nat.le_zero.mp (Nat.not_lt.mp hge)] at hlimit)
        · rw [goesOn_eq_false_iff.mpr ⟨n, hlimit, by omega⟩] at hgo
          cases hgo
      · rw [hreported, within_of_split hsplit hbefore hnode]

end Search

/-- Limits truncate the enumeration honestly. What is reported with ceilings that are high enough,
no limit on solutions and a visitor that never breaks off does not depend on any of them: these are
the solutions of the matrix. Under any limits that ask for a solution at all, and to any visitor,
the beginning of that list is reported. It is cut short after an answer to break off, after as many
solutions as were asked for, or at a node of the search tree that exceeds a ceiling, which is an
error; and otherwise it is not. -/
theorem Prepared.search_truncates {P : Type} {m : Matrix P} (h : Prepared m)
    (hsome : 0 < m.constraintCount) :
    (∀ limits : SearchLimits, limits.maxSolutions = none →
      m.activeConstraintCount ≤ limits.maxDepth → m.activeCandidateCount ≤ limits.maxBranching →
      ∀ (σ : Type) (v : Visitor P σ), v.Persistent → ∀ stats state,
        (Search.calls limits v m stats state).map (·.1) = Search.solutions m ∧
          (Search.search limits v m stats state).2 = .exhausted) ∧
    ∀ limits : SearchLimits, limits.maxSolutions ≠ some 0 →
      ∀ (σ : Type) (v : Visitor P σ) stats state,
        Truncated limits m (Search.calls limits v m stats state)
            (Search.search limits v m stats state).2 ∧
          (Search.search limits v.recorded m stats (state, [])).2 =
            (Search.search limits v m stats state).2 ∧
          (Search.search limits v.recorded m stats (state, [])).1.state.1 =
            (Search.search limits v m stats state).1.state := by
  have hm := h.coherent
  constructor
  · intro limits hlimit hdepth hbranching σ v hv stats state
    obtain ⟨hhears, hending⟩ := Search.search_hears limits v hm hsome stats state
    have hend : (Search.search limits v m stats state).2 = .exhausted := by
      rw [(Search.search_shows hlimit hv hm hsome stats state).2]
      have hroom := Search.visits_ending limits limits.maxDepth 0 (fun _ hq => hq)
        Search.coherent_chosen_of_mem hm
      rw [Nat.mul_one] at hroom
      rcases hroom with he | ⟨-, hdeep⟩ | ⟨level, degree, -, hwide, hle⟩
      · exact he
      · omega
      · omega
    rw [(Search.play_persistent hlimit hv _ _).2] at hhears hending
    refine ⟨?_, hend⟩
    have htruncated := hhears.truncated (by rw [hlimit]; nofun)
    rw [← hending, hend] at htruncated
    exact htruncated.complete rfl (hhears.all rfl).2.1 (by rw [hlimit]; nofun)
  · intro limits hcap σ v stats state
    obtain ⟨hhears, hending⟩ := Search.search_hears limits v hm hsome stats state
    refine ⟨?_, Search.search_recorded limits v stats state hm⟩
    rw [hending]
    exact hhears.truncated hcap

/-- The only solution of the sample takes two choices: two levels are enough, one is not. -/
theorem Prepared.search_truncates_sample :
    (∃ n, Search.calls {} Search.counter Matrix.sample {} 0 = [(n, true)] ∧
      Search.solutions Matrix.sample = [n]) ∧
    (∃ n, Truncated { maxDepth := 2, maxSolutions := some 1 } Matrix.sample [(n, true)] .stopped) ∧
    Truncated { maxDepth := 1 } Matrix.sample [] (.failed (.depthLimit 1)) := by
  obtain ⟨hall, hlimits⟩ := Prepared.search_truncates (.built Matrix.built_sample) (by decide)
  have hone := (hall {} rfl (by decide) (by decide) Nat Search.counter
    Search.persistent_counter {} 0).1
  have hdeep := (hlimits { maxDepth := 2, maxSolutions := some 1 } (by decide) Nat
    Search.counter {} 0).1
  have hshallow := (hlimits { maxDepth := 1 } (by decide) Nat Search.counter {} 0).1
  exact ⟨⟨_, rfl, hone.symm⟩, ⟨_, hdeep⟩, hshallow⟩

end ExactCover
