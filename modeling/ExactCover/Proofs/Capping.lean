/-
ExactCover.Proofs.Capping — showing, counting and listing solutions up to a limit.

There are three ways to ask a matrix for its first solutions: to have a search show them
to a visitor, to count them, and to list them. Where the search tree stays within the
default ceilings (`Matrix.WithinDefaults`), the search goes through all solutions, and
there are as many of them as exact covers (`length_solutions`). So what the three come to
is a matter of how much of that one list they take: counting and listing take the first
`k` solutions, and a visitor that never breaks off is shown the first `k` as well
(`calls_eq_take`).

The exception is a limit of none. A search looks at its limit only when it has shown a
solution, so it shows one even if none is asked for, while counting and listing look
first and do not search at all (`sampleEither_shows_unasked`).
-/
import Mathlib.Data.Set.Card
import ExactCover.Proofs.Names
import ExactCover.Proofs.Truncation

namespace ExactCover

/-- No node of the search tree exceeds the default ceilings. -/
def Matrix.WithinDefaults {P : Type} (m : Matrix P) : Prop :=
  ∀ n ∈ Search.traversal m, n.exceeds? {} = none

/-- How many exact covers are left to be found. -/
noncomputable def Matrix.coverCount {P : Type} (m : Matrix P) : Nat :=
  {S : Finset CandidateId | m.ResidualCover S}.ncard

namespace Search

variable {P σ : Type}

/-! ## The solutions of a matrix -/

section Within

variable {m : Matrix P}

/-- Within the default ceilings nothing is cut off, whatever the limit on solutions is. -/
theorem cuts_of_withinDefaults (hm : m.Coherent) (h : m.WithinDefaults) (limit : Nat) :
    (visits (.solutions limit) (SearchLimits.solutions limit).maxDepth 0 m).1.filterMap
        Sight.solution? = solutions m ∧
      (visits (.solutions limit) (SearchLimits.solutions limit).maxDepth 0 m).2 = .exhausted := by
  have hcuts : Cuts (.solutions limit)
      (visits (.solutions limit) (SearchLimits.solutions limit).maxDepth 0 m) (traversal m) :=
    visits_cuts hm (Nat.le_refl _) (Nat.zero_add _)
  have hnone : (traversal m).findSome? (Node.exceeds? (.solutions limit)) = none :=
    List.findSome?_eq_none_iff.mpr h
  exact ⟨by rw [hcuts.shown, within_of_none hnone, solutions], by rw [hcuts.ending, hnone]; rfl⟩

theorem runsOut_of_withinDefaults (hm : m.Coherent) (h : m.WithinDefaults) : RunsOut m :=
  fun limit => (cuts_of_withinDefaults hm h limit).2

/-- What is found is the candidates of the solutions. -/
theorem map_solutions (hm : m.Coherent) (h : m.WithinDefaults) :
    (solutions m).map Matrix.solutionCandidates = found m := by
  obtain ⟨hshown, hend⟩ := cuts_of_withinDefaults hm h 0
  rw [← hshown]
  exact solutions_visits hm hend

/-- There are as many solutions as exact covers. -/
theorem length_solutions (hm : m.Coherent) (h : m.WithinDefaults) :
    (solutions m).length = m.coverCount := by
  have hcovers : {S : Finset CandidateId | m.ResidualCover S} =
      ↑((leaves m.activeConstraintCount m).map (candidatesOf m)).toFinset := by
    ext S
    rw [Finset.mem_coe, List.mem_toFinset, mem_leaves hm (Nat.le_refl _)]
    rfl
  have hlength := congrArg List.length (map_solutions hm h)
  rw [List.length_map, found, List.length_map] at hlength
  rw [hlength, Matrix.coverCount, hcovers, Set.ncard_coe_finset,
    List.toFinset_card_of_nodup (nodup_leaves hm (Nat.le_refl _)), List.length_map]

end Within

/-! ## What a visitor is shown -/

/-- Where no answer puts an end to it, as many of the solutions are reported as are asked for, and
one at least: the limit is looked at after a solution, not before it. -/
theorem Hears.eq_take {limits : SearchLimits} {most found : Nat}
    (hlimit : limits.maxSolutions = some most) {ms : List (Matrix P)}
    {calls : List (Matrix P × Bool)} {gone : Bool} (h : Hears limits found ms calls gone)
    (hanswers : ∀ call ∈ calls, call.2 = true) :
    calls = (ms.take (max (most - found) 1)).map (·, true) := by
  induction h with
  | nil => rw [List.take_nil, List.map_nil]
  | @next found m ms calls gone hgo _ ih =>
    have hmore : found + 1 < most := by simpa [goesOn, hlimit] using hgo
    have hleft : max (most - found) 1 = max (most - (found + 1)) 1 + 1 := by omega
    rw [hleft, List.take_succ_cons, List.map_cons, ih (List.forall_mem_cons.mp hanswers).2]
  | @last found m ms answer hstop =>
    obtain rfl : answer = true := hanswers _ List.mem_cons_self
    have hleast : max (most - found) 1 = 1 := by
      have hmost : most ≤ found + 1 := by simpa [goesOn, hlimit] using hstop
      omega
    rw [hleast]
    rfl

/-- Within the default ceilings, the calls of a visitor that never breaks off are the first
solutions. -/
theorem calls_eq_take {m : Matrix P} (hm : m.Coherent) (hsome : 0 < m.constraintCount)
    (h : m.WithinDefaults) {v : Visitor P σ} (hv : v.Persistent) (limit : Nat)
    (stats : Statistics) (state : σ) :
    calls (.solutions limit) v m stats state =
      ((solutions m).take (max limit 1)).map (·, true) := by
  have hmost : (SearchLimits.solutions limit).maxSolutions = some limit := rfl
  rw [calls, showings_eq_played _ v stats state hm hsome, ← (cuts_of_withinDefaults hm h limit).1]
  refine (hears_played _ v _ 0 state).eq_take hmost fun call hcall => ?_
  obtain ⟨showing, hshowing, hreport⟩ := List.mem_filterMap.mp hcall
  obtain ⟨n, -, rfl⟩ := Option.map_eq_some_iff.mp hreport
  exact played_persistent hv _ _ showing hshowing

end Search

/-! ## The three ways agree -/

/-- With this limit, as many solutions are shown, counted and listed as there are exact covers, up
to the limit, and those that are listed are those that are shown, in the same order. -/
structure AgreesUpTo {P : Type} (m : Matrix P) (limit : Nat) (calls : List (Matrix P × Bool)) :
    Prop where
  shown : calls.length = min limit m.coverCount
  counted : (Search.countSolutions m limit).2 = .ok (min limit m.coverCount)
  listed : (Search.solveAtMost m limit).2 =
    .ok (calls.map fun call => call.1.solutionCandidates)

/-- One constraint that either of two candidates satisfies. -/
def sampleEither : Matrix Unit :=
  (Matrix.empty.constrainedAll [⟨"a", .other, true⟩]).peopledAll [⟨"x", (), [1]⟩, ⟨"y", (), [1]⟩]

theorem built_sampleEither : sampleEither.Built :=
  (Matrix.Built.empty.constrainedAll (by decide +kernel) (by decide +kernel)).peopledAll
    (by decide +kernel) (by decide +kernel) (by decide +kernel)

theorem withinDefaults_sampleEither : sampleEither.WithinDefaults := by
  have hall : ∀ n ∈ Search.traversal sampleEither, n.exceeds? {} = none := by decide +kernel
  exact hall

theorem coverCount_sampleEither : sampleEither.coverCount = 2 := by
  have htwo : (Search.solutions sampleEither).length = 2 := by decide +kernel
  rw [← htwo, Search.length_solutions built_sampleEither.fresh.coherent
    withinDefaults_sampleEither]

section Agreement

variable {P : Type}

/-- With any limit but none, showing, counting and listing solutions agree, and come to the number
of exact covers up to the limit. With a limit of none, nothing is counted or listed, but the first
solution is shown if there is one. -/
theorem Prepared.agrees_upTo {m : Matrix P} (h : Prepared m) (hsome : 0 < m.constraintCount)
    (hwithin : m.WithinDefaults) {σ : Type} {v : Visitor P σ} (hv : v.Persistent)
    (stats : Statistics) (state : σ) :
    (∀ limit, 1 ≤ limit →
      AgreesUpTo m limit (Search.calls (.solutions limit) v m stats state)) ∧
    (Search.calls (.solutions 0) v m stats state).length = min 1 m.coverCount ∧
    (Search.countSolutions m 0).2 = .ok 0 ∧ (Search.solveAtMost m 0).2 = .ok [] := by
  have hm := h.coherent
  have hrun := Search.runsOut_of_withinDefaults hm hwithin
  have hlength := Search.length_solutions hm hwithin
  have hfound := Search.map_solutions hm hwithin
  have hcalls := fun limit => Search.calls_eq_take hm hsome hwithin hv limit stats state
  have hcount : (Search.found m).length = m.coverCount := by
    rw [← hfound, List.length_map, hlength]
  refine ⟨fun limit hlimit => ?_, ?_, rfl, rfl⟩
  · have hmax : max limit 1 = limit := Nat.max_eq_left hlimit
    constructor
    case shown => rw [hcalls, List.length_map, List.length_take, hlength, hmax]
    case counted => rw [Search.countSolutions_eq hm hsome hrun, hcount]
    case listed =>
      rw [Search.solveAtMost_eq hm hsome hrun, hcalls, hmax, ← hfound, List.map_map,
        List.map_take]
      rfl
  · rw [hcalls, List.length_map, List.length_take, hlength]
    rfl

theorem Prepared.agrees_upTo_sampleEither :
    AgreesUpTo sampleEither 1 (Search.calls (.solutions 1) Search.counter sampleEither {} 0) ∧
      (Search.countSolutions sampleEither 1).2 = .ok 1 ∧
      AgreesUpTo sampleEither 5 (Search.calls (.solutions 5) Search.counter sampleEither {} 0) ∧
      (Search.countSolutions sampleEither 5).2 = .ok 2 := by
  obtain ⟨hall, -⟩ := Prepared.agrees_upTo (.built built_sampleEither) (by decide)
    withinDefaults_sampleEither (v := Search.counter) Search.persistent_counter {} 0
  have hone := hall 1 (by decide)
  have hfive := hall 5 (by decide)
  have hcounted := hone.counted
  have hcounted' := hfive.counted
  rw [coverCount_sampleEither] at hcounted hcounted'
  exact ⟨hone, hcounted, hfive, hcounted'⟩

/-- Where no solution is asked for, one is shown, though none is counted or listed. -/
theorem sampleEither_shows_unasked :
    Prepared sampleEither ∧ 0 < sampleEither.constraintCount ∧ sampleEither.WithinDefaults ∧
      (Search.counter : Visitor Unit Nat).Persistent ∧
      (Search.calls (.solutions 0) Search.counter sampleEither {} 0).length = 1 ∧
      (Search.countSolutions sampleEither 0).2 = .ok 0 ∧
      (Search.solveAtMost sampleEither 0).2 = .ok [] ∧
      ¬ AgreesUpTo sampleEither 0
        (Search.calls (.solutions 0) Search.counter sampleEither {} 0) := by
  have hshown : (Search.calls (.solutions 0) Search.counter sampleEither {} 0).length = 1 := by
    decide +kernel
  refine ⟨.built built_sampleEither, by decide, withinDefaults_sampleEither,
    Search.persistent_counter, hshown, rfl, rfl, fun hagrees => ?_⟩
  have hnone := hagrees.shown
  rw [hshown, Nat.zero_min] at hnone
  cases hnone

end Agreement

end ExactCover
