import Listing.Token

/-!
# Recent tokens

A bounded record of tokens, kept in a ring. Slots are taken in turn, and once all are in use the
newest token takes the slot of the oldest. The tokens are read backwards from the slot before the
one that is written next, around the end of the ring; `History.toList_push` says what this comes to:
the new token in front, and the oldest forgotten if there is one too many.
-/

namespace Listing

/-- The number of tokens a history holds. -/
def History.capacity : Nat := 20

/-- The most recent tokens, in the slots of a ring. -/
structure History where
  slots : Array Token
  /-- The slot that is written next. -/
  head : Nat
  bounded : slots.size ≤ History.capacity
  head_lt : head < History.capacity
  /-- No slot is written twice before all are in use. -/
  head_eq : slots.size < History.capacity → head = slots.size

namespace History

def empty : History where
  slots := #[]
  head := 0
  bounded := Nat.zero_le _
  head_lt := by decide
  head_eq := fun _ => rfl

/-- The history with one more token, the newest. -/
def push (history : History) (token : Token) : History :=
  if h : history.slots.size < capacity then
    { slots := history.slots.push token
      head := (history.slots.size + 1) % capacity
      bounded := by rw [Array.size_push]; exact h
      head_lt := Nat.mod_lt _ (by decide)
      head_eq := by rw [Array.size_push]; exact Nat.mod_eq_of_lt }
  else
    { slots := history.slots.set history.head token
        (Nat.lt_of_lt_of_le history.head_lt (Nat.not_lt.1 h))
      head := (history.head + 1) % capacity
      bounded := by rw [Array.size_set]; exact history.bounded
      head_lt := Nat.mod_lt _ (by decide)
      head_eq := by rw [Array.size_set]; exact fun hlt => absurd hlt h }

def size (history : History) : Nat :=
  history.slots.size

def isEmpty (history : History) : Bool :=
  history.slots.isEmpty

/-- The slot of the token recorded `age` steps before the newest. -/
def slot (history : History) (age : Nat) : Nat :=
  ((history.head + capacity - 1) % capacity + history.size - age) % history.size

/-- The token recorded `age` steps before the newest. -/
def get? (history : History) (age : Nat) : Option Token :=
  if age < history.size then history.slots[history.slot age]? else none

def newest? (history : History) : Option Token :=
  history.get? 0

/-- The tokens, the newest first. -/
def toList (history : History) : List Token :=
  (List.range history.size).filterMap history.get?

@[simp]
theorem toList_empty : empty.toList = [] := rfl

/-! ## Where a token stands -/

theorem slot_lt {history : History} {age : Nat} (h : age < history.size) :
    history.slot age < history.size :=
  Nat.mod_lt _ (Nat.zero_lt_of_lt h)

/-- While no slot has been written twice, the newest token stands in the last. -/
theorem slot_of_first_round {history : History} (hhead : history.head = history.size % capacity)
    {age : Nat} (h : age < history.size) : history.slot age = history.size - 1 - age := by
  have hle : history.size ≤ 20 := history.bounded
  have hnewest : (history.size % 20 + 20 - 1) % 20 = history.size - 1 := by omega
  have hsum : history.size - 1 + history.size - age
      = history.size - 1 - age + history.size := by omega
  rw [slot, hhead, capacity, hnewest, hsum, Nat.add_mod_right]
  exact Nat.mod_eq_of_lt (by omega)

/-- In a full ring tokens are found backwards from `head`. -/
theorem slot_of_full {history : History} (hfull : history.size = capacity) {age : Nat}
    (h : age < history.size) :
    history.slot age = (history.head + (capacity - 1 - age)) % capacity := by
  have hlt := history.head_lt
  rw [slot, hfull]
  rw [hfull] at h
  unfold capacity at *
  omega

theorem exists_get? {history : History} {age : Nat} (h : age < history.size) :
    ∃ token, history.get? age = some token := by
  have hslot : history.slot age < history.slots.size := slot_lt h
  exact ⟨history.slots[history.slot age], by rw [get?, if_pos h, Array.getElem?_eq_getElem hslot]⟩

theorem get?_of_le {history : History} {age : Nat} (h : history.size ≤ age) :
    history.get? age = none :=
  if_neg (Nat.not_lt.2 h)

/-! ## What a push does -/

theorem size_push (history : History) (token : Token) :
    (history.push token).size = min (history.size + 1) capacity := by
  have hle := history.bounded
  unfold push
  split
  · next h =>
    simp only [size, Array.size_push]
    omega
  · next h =>
    simp only [size, Array.size_set]
    omega

theorem get?_push_zero (history : History) (token : Token) :
    (history.push token).get? 0 = some token := by
  have hpos : 0 < (history.push token).size := by
    rw [size_push]
    unfold capacity
    omega
  rw [get?, if_pos hpos]
  by_cases h : history.slots.size < capacity
  · have hslot : (history.push token).slot 0 = history.slots.size := by
      rw [slot_of_first_round (by simp [push, h, size]) hpos]
      simp [push, h, size]
    rw [hslot]
    simp [push, h]
  · have hslot : (history.push token).slot 0 = history.head := by
      have hlt := history.head_lt
      have hsize : (history.push token).size = capacity := by
        rw [size_push, size]
        omega
      rw [slot_of_full hsize hpos]
      simp only [push, h, ↓reduceDIte]
      unfold capacity at *
      omega
    rw [hslot]
    simp [push, h]

theorem get?_push_succ (history : History) (token : Token) {age : Nat}
    (h : age + 1 < (history.push token).size) :
    (history.push token).get? (age + 1) = history.get? age := by
  have hage : age < history.size := by
    rw [size_push] at h
    omega
  rw [get?, if_pos h, get?, if_pos hage]
  by_cases hopen : history.slots.size < capacity
  · have hslot : (history.push token).slot (age + 1) = history.slot age := by
      rw [slot_of_first_round (by simp [push, hopen, size]) h, slot_of_first_round _ hage]
      · simp only [push, hopen, ↓reduceDIte, size, Array.size_push]
        omega
      · rw [size, Nat.mod_eq_of_lt hopen, history.head_eq hopen]
    have hlt : history.slot age < history.slots.size := slot_lt hage
    rw [hslot]
    simp [push, hopen, Array.getElem?_push, Nat.ne_of_lt hlt]
  · have hlt := history.head_lt
    have hfull : history.size = capacity := Nat.le_antisymm history.bounded (Nat.not_lt.1 hopen)
    have hsize : (history.push token).size = capacity := by
      rw [size_push]
      omega
    have hslot : (history.push token).slot (age + 1) = history.slot age := by
      rw [slot_of_full hsize h, slot_of_full hfull hage]
      rw [hsize] at h
      simp only [push, hopen, ↓reduceDIte]
      unfold capacity at *
      omega
    have hne : history.head ≠ history.slot age := by
      rw [slot_of_full hfull hage]
      rw [hsize] at h
      unfold capacity at *
      omega
    rw [hslot]
    simp [push, hopen, Array.getElem?_set_ne, hne]

/-! ## The history as a list -/

/-- A list that is read off at its positions. -/
theorem getElem?_filterMap_range {f : Nat → Option Token} {n : Nat}
    (h : ∀ i < n, ∃ token, f i = some token) :
    ((List.range n).filterMap f).length = n
      ∧ ∀ i < n, ((List.range n).filterMap f)[i]? = f i := by
  induction n with
  | zero => simp
  | succ n ih =>
    obtain ⟨hlength, hget⟩ := ih fun i hi => h i (Nat.lt_succ_of_lt hi)
    obtain ⟨token, htoken⟩ := h n (Nat.lt_succ_self n)
    rw [List.range_succ, List.filterMap_append]
    simp only [List.filterMap_cons, htoken, List.filterMap_nil]
    refine ⟨by simp [hlength], ?_⟩
    intro i hi
    rcases Nat.lt_succ_iff_lt_or_eq.1 hi with hlt | rfl
    · rw [List.getElem?_append_left (by omega), hget i hlt]
    · rw [List.getElem?_append_right (by omega), hlength, htoken]
      simp

theorem length_toList (history : History) : history.toList.length = history.size :=
  (getElem?_filterMap_range fun _ => exists_get?).1

theorem getElem?_toList (history : History) (age : Nat) :
    history.toList[age]? = history.get? age := by
  by_cases h : age < history.size
  · exact (getElem?_filterMap_range fun _ => exists_get?).2 age h
  · rw [get?_of_le (Nat.not_lt.1 h), List.getElem?_eq_none_iff, length_toList]
    exact Nat.not_lt.1 h

/-- **The newest token comes first**, and of too many the oldest is forgotten. -/
@[simp]
theorem toList_push (history : History) (token : Token) :
    (history.push token).toList = (token :: history.toList).take capacity := by
  apply List.ext_getElem?
  intro age
  rw [getElem?_toList, List.getElem?_take]
  have hsize := size_push history token
  cases age with
  | zero => simp [get?_push_zero, capacity]
  | succ age =>
    rw [List.getElem?_cons_succ, getElem?_toList]
    by_cases h : age + 1 < (history.push token).size
    · rw [if_pos (by omega), get?_push_succ history token h]
    · rw [get?_of_le (Nat.not_lt.1 h)]
      split
      · rw [get?_of_le (by omega)]
      · rfl

end History

end Listing
