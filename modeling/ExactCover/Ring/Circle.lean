/-
ExactCover.Ring.Circle — the circles of a ring as lists.

`Circle r s xs` says that going forward from sentinel `s` meets exactly `xs` and
then `s` again, and that going backward meets the same positions the other way.
It is the view through which the operations on rings are reasoned about:

- `Circle.forward_eq` and `Circle.backward_eq`: the walks of a ring list its
  circles;
- `Circle.unlink`: taking a position out removes it from its circle;
- `Circle.relink_unlink`: putting it back leaves no trace;
- `Circle.pushBefore`: a new position comes last;
- `Circle.unlink_of_apart` and its kin: other circles do not change.
-/
import ExactCover.Ring

namespace ExactCover.Ring

/-- Consecutive positions of a list are linked both ways. -/
def Linked (r : Ring) : List Nat → Prop
  | x :: y :: rest => r.next x = y ∧ r.prev y = x ∧ r.Linked (y :: rest)
  | _ => True

/-- The circle of sentinel `s` consists of `xs`, in this order. -/
structure Circle (r : Ring) (s : Nat) (xs : List Nat) : Prop where
  linked : r.Linked (s :: (xs ++ [s]))
  nodup : (s :: xs).Nodup
  lt_before : ∀ x ∈ s :: xs, x < r.before.size
  lt_after : ∀ x ∈ s :: xs, x < r.after.size

/-! ## Lists of linked positions -/

/-- A list that is linked at a seam is linked on both sides of it. -/
theorem linked_append {r : Ring} (xs : List Nat) (y : Nat) (zs : List Nat) :
    r.Linked (xs ++ y :: zs) ↔ r.Linked (xs ++ [y]) ∧ r.Linked (y :: zs) := by
  induction xs with
  | nil => simp [Linked]
  | cons x xs ih =>
    cases xs with
    | nil => simp [Linked, and_assoc]
    | cons x' xs =>
      simp only [List.cons_append] at ih ⊢
      simp only [Linked]
      rw [ih]
      simp only [and_assoc]

/-- Linkedness hangs on the links forward from all but the last position, and backward from all
but the first. -/
theorem Linked.congr {r r' : Ring} {xs : List Nat} (h : r.Linked xs)
    (hn : ∀ x ∈ xs.dropLast, r'.next x = r.next x) (hp : ∀ x ∈ xs.tail, r'.prev x = r.prev x) :
    r'.Linked xs := by
  induction xs with
  | nil => trivial
  | cons x xs ih =>
    cases xs with
    | nil => trivial
    | cons y rest =>
      obtain ⟨h1, h2, h3⟩ := h
      refine ⟨(hn x (by simp)).trans h1, (hp y (by simp)).trans h2, ih h3 ?_ ?_⟩
      · intro z hz
        exact hn z (by simp [hz])
      · intro z hz
        exact hp z (List.mem_of_mem_tail hz)

/-- Along linked positions going on and back is going nowhere, as is going back and on. -/
theorem Linked.turn {r : Ring} {xs : List Nat} (h : r.Linked xs) :
    (∀ x ∈ xs.dropLast, r.prev (r.next x) = x) ∧ (∀ x ∈ xs.tail, r.next (r.prev x) = x) := by
  induction xs with
  | nil => simp
  | cons x xs ih =>
    cases xs with
    | nil => simp
    | cons y rest =>
      obtain ⟨hn, hp, hrest⟩ := h
      obtain ⟨hon, hback⟩ := ih hrest
      constructor
      · intro z hz
        rw [List.dropLast_cons_cons, List.mem_cons] at hz
        rcases hz with rfl | hz
        · rw [hn, hp]
        · exact hon z hz
      · intro z hz
        rw [List.tail_cons, List.mem_cons] at hz
        rcases hz with rfl | hz
        · rw [hp, hn]
        · exact hback z hz

/-- The same ring with its directions exchanged. -/
def flip (r : Ring) : Ring := ⟨r.after, r.before⟩

theorem linked_flip_reverse {r : Ring} (xs : List Nat) (h : r.Linked xs) :
    r.flip.Linked xs.reverse := by
  induction xs with
  | nil => trivial
  | cons x xs ih =>
    cases xs with
    | nil => trivial
    | cons y rest =>
      obtain ⟨hn, hp, hrest⟩ := h
      have ih := ih hrest
      rw [List.reverse_cons] at ih
      rw [List.reverse_cons, List.reverse_cons, List.append_assoc]
      exact (linked_append rest.reverse y [x]).mpr ⟨ih, hp, hn, trivial⟩

/-! ## Walks -/

/-- A walk along linked positions meets them up to the sentinel. -/
theorem walk_of_linked {r : Ring} {s : Nat} (xs : List Nat) (n i : Nat)
    (h : r.Linked (i :: (xs ++ [s]))) (hs : s ∉ xs) (hn : xs.length < n) :
    walk r.next s n i = xs := by
  induction xs generalizing n i with
  | nil =>
    obtain ⟨n, rfl⟩ := Nat.exists_eq_succ_of_ne_zero (Nat.ne_zero_of_lt hn)
    simp [walk, h.1]
  | cons y ys ih =>
    obtain ⟨n, rfl⟩ := Nat.exists_eq_succ_of_ne_zero (Nat.ne_zero_of_lt hn)
    rw [List.mem_cons, not_or] at hs
    rw [List.length_cons] at hn
    simp only [walk]
    rw [h.1, if_neg (Ne.symm hs.1), ih n y h.2.2 hs.2 (by omega)]

namespace Circle

variable {r : Ring} {s : Nat} {xs : List Nat}

/-- A circle has no more positions than its ring. -/
theorem length_lt_after (h : Circle r s xs) : xs.length < r.after.size := by
  have hsub : s :: xs ⊆ List.range r.after.size := fun x hx =>
    List.mem_range.mpr (h.lt_after x hx)
  have := h.nodup.length_le_of_subset hsub
  rw [List.length_range, List.length_cons] at this
  exact this

theorem not_mem (h : Circle r s xs) : s ∉ xs := (List.nodup_cons.mp h.nodup).1

/-- Going forward lists the circle. -/
theorem forward_eq (h : Circle r s xs) : r.forward s = xs :=
  walk_of_linked xs r.size s h.linked h.not_mem h.length_lt_after

/-- Going backward lists the circle the other way round. -/
theorem backward_eq (h : Circle r s xs) : r.backward s = xs.reverse := by
  have hl := linked_flip_reverse _ h.linked
  rw [List.reverse_cons, List.reverse_append, List.reverse_cons, List.reverse_nil,
    List.nil_append, List.cons_append, List.nil_append] at hl
  refine walk_of_linked (r := r.flip) xs.reverse r.size s hl ?_ ?_
  · simpa using h.not_mem
  · rw [List.length_reverse]
    exact h.length_lt_after

/-- The two links of a position of a circle, or of its sentinel, are inverse to each other. -/
theorem turn {x : Nat} (h : Circle r s xs) (hx : x ∈ s :: xs) :
    r.prev (r.next x) = x ∧ r.next (r.prev x) = x := by
  obtain ⟨hon, hback⟩ := h.linked.turn
  refine ⟨hon x ?_, hback x ?_⟩
  · rw [← List.cons_append, List.dropLast_concat]
    exact hx
  · rw [List.tail_cons, List.mem_append, List.mem_singleton]
    exact (List.mem_cons.mp hx).symm

/-- A circle depends on the links of its own positions alone. -/
theorem congr {r' : Ring} (h : Circle r s xs) (hb : r'.before.size = r.before.size)
    (ha : r'.after.size = r.after.size) (hn : ∀ x ∈ s :: xs, r'.next x = r.next x)
    (hp : ∀ x ∈ s :: xs, r'.prev x = r.prev x) : Circle r' s xs where
  linked := by
    refine h.linked.congr (fun x hx => hn x ?_) (fun x hx => hp x ?_)
    · rw [← List.cons_append, List.dropLast_concat] at hx
      exact hx
    · simp only [List.tail_cons, List.mem_append, List.mem_singleton] at hx
      rcases hx with hx | hx
      · exact List.mem_cons_of_mem s hx
      · exact hx ▸ List.mem_cons_self
  nodup := h.nodup
  lt_before := fun x hx => hb ▸ h.lt_before x hx
  lt_after := fun x hx => ha ▸ h.lt_after x hx

/-- The neighbours that a position has in its circle. -/
theorem split {i : Nat} {ys : List Nat} (h : Circle r s (xs ++ i :: ys)) :
    ∃ as p n bs, s :: xs = as ++ [p] ∧ ys ++ [s] = n :: bs ∧ r.prev i = p ∧ r.next i = n ∧
      r.Linked (as ++ [p]) ∧ r.Linked (n :: bs) ∧ r.next p = i ∧ r.prev n = i := by
  obtain ⟨as, p, hp⟩ : ∃ as p, s :: xs = as ++ [p] := by
    rcases List.eq_nil_or_concat (s :: xs) with h | ⟨as, p, h⟩
    · cases h
    · exact ⟨as, p, h.trans List.concat_eq_append⟩
  obtain ⟨n, bs, hn⟩ : ∃ n bs, ys ++ [s] = n :: bs := by
    cases ys with
    | nil => exact ⟨s, [], rfl⟩
    | cons n ys => exact ⟨n, ys ++ [s], rfl⟩
  have hl : s :: ((xs ++ i :: ys) ++ [s]) = as ++ p :: i :: n :: bs := by
    rw [List.append_assoc, List.cons_append, hn, ← List.cons_append, hp, List.append_assoc,
      List.singleton_append]
  have h1 := h.linked
  rw [hl] at h1
  obtain ⟨h2, h3, h4, h5, h6, h7⟩ := (linked_append as p (i :: n :: bs)).mp h1
  exact ⟨as, p, n, bs, hp, hn, h4, h5, h2, h7, h3, h6⟩

/-- Taking a position out removes it from its circle. -/
theorem unlink {i : Nat} {ys : List Nat} (h : Circle r s (xs ++ i :: ys)) :
    Circle (r.unlink i) s (xs ++ ys) := by
  obtain ⟨as, p, n, bs, hp, hn, hpi, hni, hl, hr, -, -⟩ := h.split
  have hd : (s :: xs).Nodup ∧ (ys ++ [s]).Nodup ∧ ∀ x ∈ xs, x ∉ ys ++ [s] := by
    have := h.nodup
    grind
  have hmem : p ∈ s :: xs ∧ n ∈ ys ++ [s] := by
    rw [hp, hn]
    simp
  have hpa : p < r.after.size := h.lt_after p (by grind)
  have hnb : n < r.before.size := h.lt_before n (by grind)
  have hring : r.unlink i = r.join p n := by rw [Ring.unlink, hpi, hni]
  rw [hring]
  have hnext : ∀ x, x ≠ p → (r.join p n).next x = r.next x := fun x hx => by
    rw [next_join, if_neg fun k => hx k.1.symm]
  have hprev : ∀ x, x ≠ n → (r.join p n).prev x = r.prev x := fun x hx => by
    rw [prev_join, if_neg fun k => hx k.1.symm]
  refine ⟨?_, ?_, ?_, ?_⟩
  · have hlist : s :: ((xs ++ ys) ++ [s]) = as ++ p :: n :: bs := by
      rw [List.append_assoc, hn, ← List.cons_append, hp, List.append_assoc, List.singleton_append]
    rw [hlist]
    refine (linked_append as p (n :: bs)).mpr ⟨hl.congr ?_ ?_, ?_, ?_, hr.congr ?_ ?_⟩
    · intro x hx
      rw [List.dropLast_concat] at hx
      refine hnext x fun e => ?_
      have := hd.1
      rw [hp] at this
      grind
    · intro x hx
      rw [← hp, List.tail_cons] at hx
      exact hprev x fun e => hd.2.2 x hx (e ▸ hmem.2)
    · rw [next_join, if_pos ⟨rfl, hpa⟩]
    · rw [prev_join, if_pos ⟨rfl, hnb⟩]
    · intro x hx
      rw [← hn, List.dropLast_concat] at hx
      refine hnext x fun e => ?_
      grind
    · intro x hx
      refine hprev x fun e => ?_
      have := hd.2.1
      rw [hn] at this
      grind
  · have := h.nodup
    grind
  · intro x hx
    have := h.lt_before x
    simp only [join, Array.size_setIfInBounds]
    grind
  · intro x hx
    have := h.lt_after x
    simp only [join, Array.size_setIfInBounds]
    grind

/-- Putting a position of a circle back after taking it out leaves no trace. -/
theorem relink_unlink {i : Nat} {ys : List Nat} (h : Circle r s (xs ++ i :: ys)) :
    (r.unlink i).relink i = r := by
  obtain ⟨as, p, n, bs, -, -, hpi, hni, -, -, hp, hn⟩ := h.split
  refine Ring.relink_unlink ?_ ?_
  · rw [hpi, hp]
  · rw [hni, hn]

/-- The neighbours of a position of a circle belong to the circle, as does its sentinel. -/
theorem neighbours_mem {i : Nat} (h : Circle r s xs) (hi : i ∈ xs) :
    r.prev i ∈ s :: xs ∧ r.next i ∈ s :: xs := by
  obtain ⟨as, bs, rfl⟩ := List.append_of_mem hi
  obtain ⟨cs, p, n, ds, hp, hn, hpi, hni, -⟩ := h.split
  have hpm : p ∈ s :: as := by simp [hp]
  have hnm : n ∈ bs ++ [s] := by simp [hn]
  simp only [List.mem_cons, List.mem_append, List.not_mem_nil, or_false] at hpm hnm
  rw [hpi, hni]
  constructor
  · rcases hpm with hpm | hpm
    · simp [hpm]
    · simp [hpm]
  · rcases hnm with hnm | hnm
    · simp [hnm]
    · simp [hnm]

/-- Before the sentinel comes the last position, or the sentinel itself. -/
theorem prev_sentinel_mem (h : Circle r s xs) : r.prev s ∈ s :: xs := by
  rcases List.eq_nil_or_concat xs with rfl | ⟨as, p, rfl⟩
  · simp [show r.prev s = s from h.linked.2.1]
  · have hl : r.Linked ((s :: as) ++ p :: [s]) := by simpa using h.linked
    have hp : r.prev s = p := ((linked_append (s :: as) p [s]).mp hl).2.2.1
    simp [hp]

/-- Taking a position out leaves the others of its circle. -/
theorem unlink_filter {i : Nat} (h : Circle r s xs) (hi : i ∈ xs) :
    Circle (r.unlink i) s (xs.filter (· ≠ i)) := by
  obtain ⟨as, bs, rfl⟩ := List.append_of_mem hi
  have hd := (List.nodup_cons.mp h.nodup).2
  have hfilter : (as ++ i :: bs).filter (· ≠ i) = as ++ bs := by
    have hia : ∀ x ∈ as, x ≠ i := fun x hx => (List.nodup_append.mp hd).2.2 x hx i (by simp)
    have hib : ∀ x ∈ bs, x ≠ i := by
      have := (List.nodup_cons.mp (List.nodup_append.mp hd).2.1).1
      intro x hx hxi
      exact this (hxi ▸ hx)
    rw [List.filter_append, List.filter_cons_of_neg (by simp),
      List.filter_eq_self.mpr (by simpa using hia), List.filter_eq_self.mpr (by simpa using hib)]
  rw [hfilter]
  exact h.unlink

theorem length_filter_add_one {i : Nat} (h : Circle r s xs) (hi : i ∈ xs) :
    (xs.filter (· ≠ i)).length + 1 = xs.length := by
  have hd := (List.nodup_cons.mp h.nodup).2
  have hfilter : xs.filter (· ≠ i) = xs.erase i := by
    rw [hd.erase_eq_filter]
    exact List.filter_congr fun x _ => by by_cases hx : x = i <;> simp [hx]
  have hpos := List.length_pos_of_mem hi
  rw [hfilter, List.length_erase_of_mem hi]
  omega

/-- Putting any position of a circle back after taking it out leaves no trace. -/
theorem relink_unlink_of_mem {i : Nat} (h : Circle r s xs) (hi : i ∈ xs) :
    (r.unlink i).relink i = r := by
  obtain ⟨as, bs, rfl⟩ := List.append_of_mem hi
  exact h.relink_unlink

/-- Joining two positions leaves a circle alone that has neither of them. -/
theorem join {p n : Nat} (h : Circle r s xs) (hp : p ∉ s :: xs) (hn : n ∉ s :: xs) :
    Circle (r.join p n) s xs := by
  refine h.congr (by simp [Ring.join]) (by simp [Ring.join]) (fun x hx => ?_) (fun x hx => ?_)
  · have hne : p ≠ x := fun e => hp (e ▸ hx)
    rw [next_join, if_neg fun k => hne k.1]
  · have hne : n ≠ x := fun e => hn (e ▸ hx)
    rw [prev_join, if_neg fun k => hne k.1]

/-- Taking a position out leaves a circle alone that does not have its neighbours. -/
theorem unlink_of_apart {i : Nat} (h : Circle r s xs) (hp : r.prev i ∉ s :: xs)
    (hn : r.next i ∉ s :: xs) : Circle (r.unlink i) s xs :=
  h.join hp hn

/-- Taking a position out of one circle leaves every circle alone that has nothing in common
with it. -/
theorem unlink_of_disjoint {t : Nat} {ys : List Nat} {i : Nat} (h : Circle r s xs)
    (k : Circle r t ys) (hi : i ∈ ys) (hd : ∀ x ∈ t :: ys, x ∉ s :: xs) :
    Circle (r.unlink i) s xs :=
  have hm := k.neighbours_mem hi
  h.unlink_of_apart (hd _ hm.1) (hd _ hm.2)

/-- A position alone is its own neighbour, so taking it out changes nothing. -/
theorem unlink_alone (h : Circle r s []) : r.unlink s = r := by
  obtain ⟨hn, hp, -⟩ := h.linked
  rw [Ring.unlink, hn, hp, Ring.join, setIfInBounds_of_getD_eq hp, setIfInBounds_of_getD_eq hn]

/-- Putting back a position that is alone changes nothing either. -/
theorem relink_alone (h : Circle r s []) : r.relink s = r := by
  obtain ⟨hn, hp, -⟩ := h.linked
  rw [Ring.relink, hn, hp, setIfInBounds_of_getD_eq hp, setIfInBounds_of_getD_eq hn]

end Circle

/-! ## New positions -/

theorem next_pushBefore (r : Ring) (s k : Nat) :
    (r.pushBefore s).next k =
      if r.prev s = k ∧ k < r.after.size + 1 then r.size
      else if k = r.after.size then s else r.next k := by
  unfold pushBefore next
  simp only [Array.getD_eq_getD_getElem?, Array.getElem?_setIfInBounds, Array.size_push,
    Array.getElem?_push]
  grind

theorem prev_pushBefore (r : Ring) (s k : Nat) :
    (r.pushBefore s).prev k =
      if s = k ∧ k < r.before.size + 1 then r.size
      else if k = r.before.size then r.prev s else r.prev k := by
  unfold pushBefore prev
  simp only [Array.getD_eq_getD_getElem?, Array.getElem?_setIfInBounds, Array.size_push,
    Array.getElem?_push]
  grind

theorem next_pushAlone (r : Ring) (k : Nat) :
    r.pushAlone.next k = if k = r.after.size then r.size else r.next k := by
  unfold pushAlone next
  simp only [Array.getD_eq_getD_getElem?, Array.getElem?_push]
  grind

theorem prev_pushAlone (r : Ring) (k : Nat) :
    r.pushAlone.prev k = if k = r.before.size then r.size else r.prev k := by
  unfold pushAlone prev
  simp only [Array.getD_eq_getD_getElem?, Array.getElem?_push]
  grind

namespace Circle

variable {r : Ring} {s : Nat} {xs : List Nat}

/-- A new position comes last in its circle. -/
theorem pushBefore (h : Circle r s xs) (hsize : r.before.size = r.after.size) :
    Circle (r.pushBefore s) s (xs ++ [r.size]) := by
  obtain ⟨as, p, hp⟩ : ∃ as p, s :: xs = as ++ [p] := by
    rcases List.eq_nil_or_concat (s :: xs) with h | ⟨as, p, h⟩
    · cases h
    · exact ⟨as, p, h.trans List.concat_eq_append⟩
  have hl := h.linked
  have hold : s :: (xs ++ [s]) = as ++ p :: [s] := by
    rw [← List.cons_append, hp, List.append_assoc, List.singleton_append]
  have hnew : s :: ((xs ++ [r.size]) ++ [s]) = as ++ p :: [r.size, s] := by
    rw [List.append_assoc, ← List.cons_append, hp, List.append_assoc, List.singleton_append,
      List.singleton_append]
  rw [hold] at hl
  obtain ⟨hl, -, hps, -⟩ := (linked_append as p [s]).mp hl
  have hlt := h.lt_after
  have hltb := h.lt_before
  have hd := h.nodup
  have hmem : p ∈ s :: xs := by
    rw [hp]
    simp
  refine ⟨?_, ?_, ?_, ?_⟩
  · rw [hnew]
    refine (linked_append as p [r.size, s]).mpr ⟨hl.congr ?_ ?_, ?_, ?_, ?_, ?_, trivial⟩
    · intro x hx
      rw [List.dropLast_concat] at hx
      rw [next_pushBefore]
      have : x ∈ s :: xs := by
        rw [hp]
        exact List.mem_append_left _ hx
      have hne : p ≠ x := by
        rw [hp] at hd
        grind
      have := hlt x this
      rw [if_neg fun k => hne (hps ▸ k.1), if_neg (by omega)]
    · intro x hx
      rw [← hp, List.tail_cons] at hx
      rw [prev_pushBefore]
      have hne : s ≠ x := by grind
      have := hltb x (List.mem_cons_of_mem s hx)
      rw [if_neg fun k => hne k.1, if_neg (by omega)]
    · have := hlt p hmem
      rw [next_pushBefore, if_pos ⟨hps, by omega⟩]
    · have := hltb s List.mem_cons_self
      rw [prev_pushBefore, if_neg fun k => absurd k.1 (by unfold size; omega),
        if_pos (by unfold size; omega), hps]
    · have := hlt p hmem
      rw [next_pushBefore, if_neg fun k => absurd k.1 (by unfold size; omega),
        if_pos (by rfl)]
    · have := hltb s List.mem_cons_self
      rw [prev_pushBefore, if_pos ⟨rfl, by omega⟩]
  · have : r.size ∉ s :: xs := fun hx => absurd (hlt _ hx) (Nat.lt_irrefl _)
    grind
  · intro x hx
    simp only [Ring.pushBefore, Array.size_setIfInBounds, Array.size_push]
    have := hltb x
    unfold size at hx
    grind
  · intro x hx
    simp only [Ring.pushBefore, Array.size_setIfInBounds, Array.size_push]
    have := hlt x
    unfold size at hx
    grind

/-- A new position leaves a circle alone that it does not join. -/
theorem pushBefore_of_apart {t : Nat} (h : Circle r s xs)
    (hsize : r.before.size = r.after.size) (ht : t ∉ s :: xs) (hp : r.prev t ∉ s :: xs) :
    Circle (r.pushBefore t) s xs := by
  have hlt := h.lt_after
  have hltb := h.lt_before
  refine ⟨h.linked.congr ?_ ?_, h.nodup, fun x hx => ?_, fun x hx => ?_⟩
  · intro x hx
    rw [← List.cons_append, List.dropLast_concat] at hx
    have := hlt x hx
    have hne : r.prev t ≠ x := fun e => hp (e ▸ hx)
    rw [next_pushBefore, if_neg fun k => hne k.1, if_neg (by omega)]
  · intro x hx
    have hx : x ∈ s :: xs := by
      simp only [List.tail_cons, List.mem_append, List.mem_singleton] at hx
      grind
    have := hltb x hx
    have hne : t ≠ x := fun e => ht (e ▸ hx)
    rw [prev_pushBefore, if_neg fun k => hne k.1, if_neg (by omega)]
  · simp only [Ring.pushBefore, Array.size_setIfInBounds, Array.size_push]
    exact Nat.lt_succ_of_lt (hltb x hx)
  · simp only [Ring.pushBefore, Array.size_setIfInBounds, Array.size_push]
    exact Nat.lt_succ_of_lt (hlt x hx)

/-- A position that is added alone forms an empty circle. -/
theorem pushAlone (hsize : r.before.size = r.after.size) : Circle r.pushAlone r.size [] where
  linked := by
    refine ⟨?_, ?_, trivial⟩
    · rw [next_pushAlone, if_pos (by rfl)]
    · rw [prev_pushAlone, if_pos (by rw [hsize]; rfl)]
  nodup := by simp
  lt_before := by simp [Ring.pushAlone, size, hsize]
  lt_after := by simp [Ring.pushAlone, size]

/-- A position that is added alone leaves all circles alone. -/
theorem pushAlone_of_apart (h : Circle r s xs) : Circle r.pushAlone s xs := by
  have hlt := h.lt_after
  have hltb := h.lt_before
  refine ⟨h.linked.congr ?_ ?_, h.nodup, fun x hx => ?_, fun x hx => ?_⟩
  · intro x hx
    rw [← List.cons_append, List.dropLast_concat] at hx
    have := hlt x hx
    rw [next_pushAlone, if_neg (by omega)]
  · intro x hx
    have hx : x ∈ s :: xs := by
      simp only [List.tail_cons, List.mem_append, List.mem_singleton] at hx
      grind
    have := hltb x hx
    rw [prev_pushAlone, if_neg (by omega)]
  · simp only [Ring.pushAlone, Array.size_push]
    exact Nat.lt_succ_of_lt (hltb x hx)
  · simp only [Ring.pushAlone, Array.size_push]
    exact Nat.lt_succ_of_lt (hlt x hx)

end Circle

end ExactCover.Ring
