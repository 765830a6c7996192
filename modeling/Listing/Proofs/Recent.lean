import Listing.History

/-!
# The last tokens

What a ring holds after a run of pushes, however often the run has gone around it. One push sets its
token in front and cuts the list at the capacity of the ring (`History.toList_push`), and a cut that
is made again and again is made once (`toList_foldl_push`). In what slot a token stands does not
enter: `getElem?_toList` finds the token of an age in the ring at its place in the list.
-/

namespace Listing.History

/-- A run of pushes sets its tokens, the last in front, before what was there. -/
theorem toList_foldl_push (history : History) (tokens : List Token) :
    (tokens.foldl push history).toList = (tokens.reverse ++ history.toList).take capacity := by
  induction tokens generalizing history with
  | nil =>
    have hbounded : history.toList.length ≤ capacity := by
      rw [length_toList]
      exact history.bounded
    exact (List.take_of_length_le hbounded).symm
  | cons token tokens ih =>
    have hcut : ∀ front back : List Token,
        (front ++ back.take capacity).take capacity = (front ++ back).take capacity := by
      intro front back
      rw [List.take_append, List.take_append, List.take_take,
        Nat.min_eq_left (Nat.sub_le capacity front.length)]
    rw [List.foldl_cons, ih, toList_push, hcut, List.reverse_cons, List.append_assoc,
      List.singleton_append]

/-- **A history is its last twenty tokens.** After a run of pushes into an empty ring it has the
last twenty tokens of the run, or all if there are fewer, and they are read from the last on
backwards; each is found by its age, and nothing is found for a greater one. -/
theorem last_twenty_of_pushes (tokens : List Token) :
    let history := tokens.foldl push empty
    history.toList = tokens.reverse.take 20
      ∧ history.size = min 20 tokens.length
      ∧ history.newest? = tokens.getLast?
      ∧ ∀ age, history.get? age
        = if age < history.size then tokens[tokens.length - 1 - age]? else none := by
  intro history
  have hlist : history.toList = tokens.reverse.take 20 := by
    have hrun := toList_foldl_push empty tokens
    rwa [toList_empty, List.append_nil] at hrun
  have hsize : history.size = min 20 tokens.length := by
    rw [← length_toList, hlist, List.length_take, List.length_reverse]
  refine ⟨hlist, hsize, ?_, fun age => ?_⟩
  · rw [newest?, ← getElem?_toList, hlist, List.getElem?_take_of_lt (by decide),
      ← List.head?_eq_getElem?, List.head?_reverse]
  · split
    · next hage =>
      rw [hsize, Nat.lt_min] at hage
      rw [← getElem?_toList, hlist, List.getElem?_take_of_lt hage.1, List.getElem?_reverse hage.2]
    · next hage => exact get?_of_le (Nat.not_lt.1 hage)

end Listing.History
