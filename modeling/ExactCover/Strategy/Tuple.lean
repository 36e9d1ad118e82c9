/-
ExactCover.Strategy.Tuple — the first pair or triple of a list that answers.

Members of a tuple stand in the order of the list, and tuples are tried in
lexicographic order of their places. Of triples only those are tried whose
members are pairwise `apart`.
-/

namespace ExactCover

/-- The first answer that `f` gives for a pair of members. -/
@[specialize] def firstPair {α β : Type} (f : α → α → Option β) : List α → Option β
  | [] => none
  | a :: rest =>
    match rest.findSome? (f a) with
    | some answer => some answer
    | none => firstPair f rest

/-- The first answer that `f` gives for a triple of members that are pairwise `apart`. -/
@[specialize] def firstTriple {α β : Type} (apart : α → α → Bool) (f : α → α → α → Option β) :
    List α → Option β
  | [] => none
  | a :: rest =>
    let others := rest.filter (apart a)
    match firstPair (fun b c => if apart b c then f a b c else none) others with
    | some answer => some answer
    | none => firstTriple apart f rest

end ExactCover
