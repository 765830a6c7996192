import Listing.Text.Lines
import Listing.Token
import Listing.Window

/-!
# Lines of a text, and the part of it in a window

A text is its lines joined by newlines (`lines_ofLines`), and two texts set one after the other are
their lines glued where they meet (`lines_append`). The part of a text in a window is said by
`Text.visible`, which goes through the text character by character and counts lines, because that
can be taken apart wherever the text is cut (`visible_append`). What it comes to is said twice: it
is the stretch from the beginning of the first line of the window to the end of the last
(`visible_spans`), and it is made of those lines (`lines_visible`, `select_eq_drop`).
-/

namespace Listing

/-! ## Counting newlines -/

@[simp]
theorem newlines_nil : newlines [] = 0 := rfl

@[simp]
theorem newlines_append (front back : List Char) :
    newlines (front ++ back) = newlines front + newlines back :=
  List.count_append

@[simp]
theorem newlines_cons_newline (cs : List Char) : newlines ('\n' :: cs) = newlines cs + 1 :=
  List.count_cons_self

theorem newlines_cons_of_ne {c : Char} (h : c ≠ '\n') (cs : List Char) :
    newlines (c :: cs) = newlines cs :=
  List.count_cons_of_ne h

theorem newlines_eq_zero {cs : List Char} : newlines cs = 0 ↔ '\n' ∉ cs :=
  List.count_eq_zero

namespace Text

/-! ## Cutting at newlines and joining -/

@[simp]
theorem lines_nil : lines [] = [[]] := rfl

@[simp]
theorem lines_cons_newline (cs : List Char) : lines ('\n' :: cs) = [] :: lines cs := by
  simp [lines]

theorem lines_cons_of_ne {c : Char} (h : c ≠ '\n') {cs row : List Char} {more : List (List Char)}
    (hl : lines cs = row :: more) : lines (c :: cs) = (c :: row) :: more := by
  simp [lines, h, hl]

/-- A text has one line more than it has newlines. -/
theorem length_lines (cs : List Char) : (lines cs).length = newlines cs + 1 := by
  induction cs with
  | nil => rfl
  | cons c cs ih =>
    by_cases hc : c = '\n'
    · subst hc
      simp [ih]
    · obtain ⟨row, more, hl⟩ := List.exists_cons_of_ne_nil (lines_ne_nil cs)
      rw [lines_cons_of_ne hc hl, newlines_cons_of_ne hc, ← ih, hl]
      rfl

theorem newline_notMem_of_mem_lines {cs row : List Char} (h : row ∈ lines cs) : '\n' ∉ row := by
  induction cs generalizing row with
  | nil =>
    rw [lines_nil, List.mem_singleton] at h
    simp [h]
  | cons c cs ih =>
    by_cases hc : c = '\n'
    · subst hc
      rw [lines_cons_newline, List.mem_cons] at h
      rcases h with rfl | h
      · exact List.not_mem_nil
      · exact ih h
    · obtain ⟨first, more, hl⟩ := List.exists_cons_of_ne_nil (lines_ne_nil cs)
      rw [lines_cons_of_ne hc hl, List.mem_cons] at h
      rcases h with rfl | h
      · have := ih (hl ▸ List.mem_cons_self)
        simp [Ne.symm hc, this]
      · exact ih (hl ▸ List.mem_cons_of_mem _ h)

theorem lines_of_newline_notMem {cs : List Char} (h : '\n' ∉ cs) : lines cs = [cs] := by
  induction cs with
  | nil => rfl
  | cons c cs ih =>
    rw [List.mem_cons, not_or] at h
    exact lines_cons_of_ne (Ne.symm h.1) (ih h.2)

/-- The text with these lines. -/
def ofLines : List (List Char) → List Char
  | [] => []
  | [row] => row
  | row :: next :: more => row ++ '\n' :: ofLines (next :: more)

theorem ofLines_cons {row : List Char} {more : List (List Char)} (h : more ≠ []) :
    ofLines (row :: more) = row ++ '\n' :: ofLines more := by
  cases more with
  | nil => exact absurd rfl h
  | cons next more => rfl

theorem ofLines_cons_cons (c : Char) (row : List Char) (more : List (List Char)) :
    ofLines ((c :: row) :: more) = c :: ofLines (row :: more) := by
  cases more <;> rfl

theorem lines_append_newline {row : List Char} (h : '\n' ∉ row) (cs : List Char) :
    lines (row ++ '\n' :: cs) = row :: lines cs := by
  induction row with
  | nil => simp
  | cons c row ih =>
    rw [List.mem_cons, not_or] at h
    exact lines_cons_of_ne (Ne.symm h.1) (ih h.2)

/-- Lines without newlines in them are the lines of the text they make. -/
theorem lines_ofLines {rows : List (List Char)} (hne : rows ≠ []) (h : ∀ row ∈ rows, '\n' ∉ row) :
    lines (ofLines rows) = rows := by
  induction rows with
  | nil => exact absurd rfl hne
  | cons row more ih =>
    have hrow : '\n' ∉ row := h row List.mem_cons_self
    by_cases hm : more = []
    · subst hm
      exact lines_of_newline_notMem hrow
    · rw [ofLines_cons hm, lines_append_newline hrow,
        ih hm fun row' hmem => h row' (List.mem_cons_of_mem _ hmem)]

/-- Lines set one after the other: the last of the one text goes on with the first of the other. -/
def glue : List (List Char) → List (List Char) → List (List Char)
  | [], rows => rows
  | [row], [] => [row]
  | [row], next :: more => (row ++ next) :: more
  | row :: next :: above, rows => row :: glue (next :: above) rows

theorem glue_concat (above : List (List Char)) (row next : List Char) (more : List (List Char)) :
    glue (above ++ [row]) (next :: more) = above ++ (row ++ next) :: more := by
  induction above with
  | nil => rfl
  | cons first above ih =>
    cases above with
    | nil => rfl
    | cons second above => exact congrArg (first :: ·) ih

theorem glue_cons {above : List (List Char)} (h : above ≠ []) (row : List Char)
    (rows : List (List Char)) : glue (row :: above) rows = row :: glue above rows := by
  cases above with
  | nil => exact absurd rfl h
  | cons next above => rfl

/-- The lines of two texts set one after the other are those of the two, glued. -/
theorem lines_append (front back : List Char) :
    lines (front ++ back) = glue (lines front) (lines back) := by
  induction front with
  | nil =>
    obtain ⟨next, more, hl⟩ := List.exists_cons_of_ne_nil (lines_ne_nil back)
    rw [List.nil_append, hl]
    rfl
  | cons c front ih =>
    by_cases hc : c = '\n'
    · subst hc
      rw [List.cons_append, lines_cons_newline, lines_cons_newline, ih,
        glue_cons (lines_ne_nil front)]
    · obtain ⟨row, more, hfront⟩ := List.exists_cons_of_ne_nil (lines_ne_nil front)
      obtain ⟨next, below, hback⟩ := List.exists_cons_of_ne_nil (lines_ne_nil back)
      rw [lines_cons_of_ne hc hfront, List.cons_append]
      rw [hfront, hback] at ih
      rw [hback]
      cases more with
      | nil => exact lines_cons_of_ne hc ih
      | cons second more => exact lines_cons_of_ne hc ih

/-! ## Cutting at a character -/

theorem takeWhile_append_cons {stop : Char} {front : List Char} (h : stop ∉ front)
    (back : List Char) : (front ++ stop :: back).takeWhile (· != stop) = front := by
  have hfront : ∀ c ∈ front, (c != stop) = true := by
    intro c hc
    have hne : c ≠ stop := fun heq => h (heq ▸ hc)
    simpa using hne
  rw [List.takeWhile_append_of_pos hfront]
  simp

theorem dropWhile_append_cons {stop : Char} {front : List Char} (h : stop ∉ front)
    (back : List Char) : (front ++ stop :: back).dropWhile (· != stop) = stop :: back := by
  have hfront : ∀ c ∈ front, (c != stop) = true := by
    intro c hc
    have hne : c ≠ stop := fun heq => h (heq ▸ hc)
    simpa using hne
  rw [List.dropWhile_append_of_pos hfront]
  simp

end Text

/-! ## The part of a text in a window -/

namespace Window

/-- The characters of the line are shown. -/
def shows (window : Window) (line : Nat) : Bool :=
  !window.isAhead line && !window.isPast line

/-- The newline that ends the line is shown, as the next line is shown too. -/
def showsEnd (window : Window) (line : Nat) : Bool :=
  !window.isAhead line && !window.isAtEnd line

theorem shows_iff {window : Window} {line : Nat} :
    window.shows line = true
      ↔ (∀ first, window.first = some first → first ≤ line)
        ∧ ∀ last, window.last = some last → line ≤ last := by
  unfold shows isAhead isPast
  cases window.first <;> cases window.last <;> simp

theorem showsEnd_iff {window : Window} {line : Nat} :
    window.showsEnd line = true
      ↔ (∀ first, window.first = some first → first ≤ line)
        ∧ ∀ last, window.last = some last → line < last := by
  unfold showsEnd isAhead isAtEnd
  cases window.first <;> cases window.last <;> simp

theorem shows_lines_self {line other : Nat} :
    (lines line line).shows other = true ↔ other = line := by
  rw [shows_iff]
  simp only [lines, Option.some.injEq, forall_eq']
  omega

theorem shows_of_showsEnd {window : Window} {line : Nat} (h : window.showsEnd line = true) :
    window.shows line = true := by
  rw [showsEnd_iff] at h
  exact shows_iff.2 ⟨h.1, fun last hl => Nat.le_of_lt (h.2 last hl)⟩

theorem shows_succ_of_showsEnd {window : Window} {line : Nat} (h : window.showsEnd line = true) :
    window.shows (line + 1) = true := by
  rw [showsEnd_iff] at h
  exact shows_iff.2 ⟨fun first hf => Nat.le_succ_of_le (h.1 first hf), h.2⟩

/-- A shown line whose newline is not shown is the last of the window. -/
theorem last_eq {window : Window} {line : Nat} (hs : window.shows line = true)
    (he : window.showsEnd line = false) : window.last = some line := by
  rw [shows_iff] at hs
  cases hl : window.last with
  | none =>
    have : window.showsEnd line = true := showsEnd_iff.2 ⟨hs.1, by simp [hl]⟩
    simp [he] at this
  | some last =>
    have hle : line ≤ last := hs.2 last hl
    have hnot : ¬line < last := by
      intro hlt
      have : window.showsEnd line = true := showsEnd_iff.2 ⟨hs.1, by simp [hl, hlt]⟩
      simp [he] at this
    rw [show last = line by omega]

theorem isPast_succ {window : Window} {line : Nat} (hs : window.shows line = true)
    (he : window.showsEnd line = false) : window.isPast (line + 1) = true := by
  simp [isPast, last_eq hs he]

theorem isPast_succ_eq (window : Window) (line : Nat) :
    window.isPast (line + 1) = window.isAtEnd line := by
  simp only [isPast, isAtEnd, Nat.lt_succ_iff]

theorem last_eq_of_isAtEnd {window : Window} {line : Nat} (hp : window.isPast line = false)
    (he : window.isAtEnd line = true) : window.last = some line := by
  unfold isPast at hp
  unfold isAtEnd at he
  cases hl : window.last with
  | none => simp [hl] at he
  | some last =>
    simp only [hl, Option.any_some, decide_eq_false_iff_not, decide_eq_true_eq] at hp he
    rw [show last = line by omega]

theorem isPast_mono {window : Window} {line below : Nat} (h : window.isPast line = true)
    (hle : line ≤ below) : window.isPast below = true := by
  unfold isPast at h ⊢
  cases hl : window.last with
  | none => simp [hl] at h
  | some last =>
    simp only [hl, Option.any_some, decide_eq_true_eq] at h ⊢
    omega

theorem shows_eq_false_of_isPast {window : Window} {line : Nat} (h : window.isPast line = true) :
    window.shows line = false := by
  simp [shows, h]

theorem showsEnd_eq_false_of_shows {window : Window} {line : Nat} (h : window.shows line = false) :
    window.showsEnd line = false := by
  cases he : window.showsEnd line with
  | false => rfl
  | true => rw [shows_of_showsEnd he] at h; exact h

@[simp]
theorem last_normalized (window : Window) : window.normalized.last = window.last := by
  unfold normalized
  split <;> simp_all

@[simp]
theorem normalized_normalized (window : Window) :
    window.normalized.normalized = window.normalized := by
  obtain ⟨first, last, focus⟩ := window
  cases first <;> cases last <;> simp [normalized]

theorem one_le_firstLine_normalized (window : Window) : 1 ≤ window.normalized.firstLine := by
  unfold normalized firstLine
  split
  · exact Nat.le_max_right ..
  · simp
  · simp_all

theorem eq_none_of_isActive_normalized {window : Window}
    (h : window.normalized.isActive = false) :
    window.normalized.first = none ∧ window.normalized.last = none := by
  unfold normalized isActive at h
  unfold normalized
  split <;> simp_all

theorem isActive_normalized_of_none {window : Window} (hf : window.first = none)
    (hl : window.last = none) : window.normalized.isActive = false := by
  simp [normalized, isActive, hf, hl]

theorem isActive_normalized_of_last {window : Window} {last : Nat} (h : window.last = some last) :
    window.normalized.isActive = true := by
  unfold normalized isActive
  split <;> simp_all

theorem isInverted_normalized_eq_false {window : Window} :
    window.normalized.isInverted = false
      ↔ ∀ last, window.last = some last → window.normalized.firstLine ≤ last := by
  obtain ⟨first, last, focus⟩ := window
  cases first <;> cases last <;> simp [normalized, isInverted, firstLine, Nat.one_le_iff_ne_zero]

/-- A window that is not inverted shows its first line. -/
theorem shows_firstLine_normalized {window : Window}
    (h : window.normalized.isInverted = false) :
    window.normalized.shows window.normalized.firstLine = true := by
  rw [shows_iff]
  cases hf : window.normalized.first with
  | none =>
    have hactive : window.normalized.isActive = false := by simp [isActive, hf]
    have hl := (eq_none_of_isActive_normalized hactive).2
    simp only [hl]
    simp
  | some first =>
    refine ⟨by simp [firstLine, hf], ?_⟩
    intro last hl
    simp only [isInverted, hf, hl, decide_eq_false_iff_not, Nat.not_lt] at h
    simpa [firstLine, hf] using h

theorem isAhead_eq_decide {window : Window} {line : Nat} (h : 1 ≤ line) :
    window.isAhead line = decide (line < window.firstLine) := by
  unfold isAhead firstLine
  cases window.first with
  | none => simpa using Nat.ne_of_gt h
  | some first => rfl

/-- The lines shown, of lines numbered from `line` on. -/
def select (window : Window) : Nat → List (List Char) → List (List Char)
  | _, [] => []
  | line, row :: more =>
    if window.shows line then row :: select window (line + 1) more
    else select window (line + 1) more

theorem select_lines_self (line first : Nat) (rows : List (List Char)) :
    (lines line line).select first rows
      = if first ≤ line then rows[line - first]?.toList else [] := by
  induction rows generalizing first with
  | nil => simp [select]
  | cons row rows ih =>
    rw [select, ih]
    rcases Nat.lt_trichotomy first line with hlt | rfl | hgt
    · have hindex : line - first = line - (first + 1) + 1 := by omega
      rw [if_neg (by rw [shows_lines_self]; omega), if_pos (Nat.succ_le_of_lt hlt),
        if_pos (Nat.le_of_lt hlt), hindex, List.getElem?_cons_succ]
    · rw [if_pos (shows_lines_self.2 rfl), if_neg (Nat.not_succ_le_self first),
        if_pos (Nat.le_refl first), Nat.sub_self]
      rfl
    · rw [if_neg (by rw [shows_lines_self]; omega), if_neg (by omega), if_neg (by omega)]

theorem select_of_isPast {window : Window} {line : Nat} (h : window.isPast line = true)
    (rows : List (List Char)) : window.select line rows = [] := by
  induction rows generalizing line with
  | nil => rfl
  | cons row more ih =>
    simp [select, shows_eq_false_of_isPast h, ih (isPast_mono h (Nat.le_succ line))]

/-- The lines shown are those from the first to the last of the window. -/
theorem select_eq_drop {window : Window} (h : window.shows window.firstLine = true) {line : Nat}
    (hpos : 1 ≤ line) (rows : List (List Char)) :
    window.select line rows
      = (window.last.elim rows fun last => rows.take (last + 1 - line)).drop
          (window.firstLine - line) := by
  have hfirst := (shows_iff.1 h).2
  induction rows generalizing line with
  | nil => cases window.last <;> simp [select]
  | cons row more ih =>
    have ih := @ih (line + 1) (Nat.le_add_left ..)
    have hshows : window.shows line
        = (!decide (line < window.firstLine) && !window.isPast line) := by
      rw [shows, isAhead_eq_decide hpos]
    simp only [select, ih, hshows]
    by_cases hahead : line < window.firstLine
    · have hdrop : window.firstLine - line = window.firstLine - (line + 1) + 1 := by omega
      rw [if_neg (by simp [hahead]), hdrop]
      cases hl : window.last with
      | none => simp
      | some last =>
        have hle := hfirst last hl
        have htake : last + 1 - line = last + 1 - (line + 1) + 1 := by omega
        simp only [Option.elim_some, htake, List.take_succ_cons, List.drop_succ_cons]
    · have hzero : window.firstLine - line = 0 ∧ window.firstLine - (line + 1) = 0 := by omega
      rw [hzero.1, hzero.2, List.drop_zero, List.drop_zero]
      cases hl : window.last with
      | none => simp [hahead, isPast, hl]
      | some last =>
        by_cases hpast : last < line
        · have htake : last + 1 - line = 0 ∧ last + 1 - (line + 1) = 0 := by omega
          rw [if_neg (by simp [isPast, hl, hpast]), Option.elim_some, Option.elim_some, htake.1,
            htake.2, List.take_zero, List.take_zero]
        · have htake : last + 1 - line = last + 1 - (line + 1) + 1 := by omega
          rw [if_pos (by simp [hahead, isPast, hl, hpast])]
          simp only [Option.elim_some, htake, List.take_succ_cons]

/-- A line shown is the line of its number. -/
theorem getElem?_select {window : Window} (h : window.shows window.firstLine = true)
    (hpos : 1 ≤ window.firstLine) {rows : List (List Char)} {i : Nat} {row : List Char}
    (hrow : (window.select 1 rows)[i]? = some row) :
    rows[window.firstLine + i - 1]? = some row := by
  rw [select_eq_drop h (Nat.le_refl 1), List.getElem?_drop] at hrow
  have hi : window.firstLine - 1 + i = window.firstLine + i - 1 := by omega
  rw [hi] at hrow
  cases hl : window.last with
  | none => simpa [hl] using hrow
  | some last =>
    rw [hl, Option.elim_some, List.getElem?_take] at hrow
    split at hrow
    · exact hrow
    · cases hrow

theorem mem_of_mem_select {window : Window} {line : Nat} {rows : List (List Char)}
    {row : List Char} (h : row ∈ window.select line rows) : row ∈ rows := by
  induction rows generalizing line with
  | nil => exact h
  | cons first more ih =>
    simp only [select] at h
    split at h
    · rcases List.mem_cons.1 h with rfl | h
      · exact List.mem_cons_self
      · exact List.mem_cons_of_mem _ (ih h)
    · exact List.mem_cons_of_mem _ (ih h)

theorem length_select {window : Window} (h : window.shows window.firstLine = true)
    (hpos : 1 ≤ window.firstLine) (rows : List (List Char)) :
    (window.select 1 rows).length
      = window.last.elim rows.length (min · rows.length) + 1 - window.firstLine := by
  rw [select_eq_drop h (Nat.le_refl 1), List.length_drop]
  cases window.last with
  | none =>
    rw [Option.elim_none, Option.elim_none]
    omega
  | some last =>
    rw [Option.elim_some, Option.elim_some, List.length_take]
    omega

theorem select_ne_nil {window : Window} (h : window.shows window.firstLine = true)
    (hpos : 1 ≤ window.firstLine) {rows : List (List Char)}
    (hlen : window.firstLine ≤ rows.length) : window.select 1 rows ≠ [] := by
  have hfirst := (shows_iff.1 h).2
  rw [← List.length_pos_iff, length_select h hpos]
  cases hl : window.last with
  | none =>
    rw [Option.elim_none]
    omega
  | some last =>
    have hle := hfirst last hl
    rw [Option.elim_some]
    omega

end Window

namespace Text

/-- The part of a text in a window, if the text begins on `line`. -/
def visible (window : Window) : Nat → List Char → List Char
  | _, [] => []
  | line, c :: cs =>
    if c = '\n' then
      if window.showsEnd line then c :: visible window (line + 1) cs
      else visible window (line + 1) cs
    else if window.shows line then c :: visible window line cs
    else visible window line cs

@[simp]
theorem visible_nil (window : Window) (line : Nat) : visible window line [] = [] := rfl

/-- Where a text is cut makes no difference to what is shown of it. -/
theorem visible_append (window : Window) (line : Nat) (front back : List Char) :
    visible window line (front ++ back)
      = visible window line front ++ visible window (line + newlines front) back := by
  induction front generalizing line with
  | nil => rfl
  | cons c front ih =>
    by_cases hc : c = '\n'
    · subst hc
      have hline : line + (newlines front + 1) = line + 1 + newlines front := by omega
      simp only [List.cons_append, visible, ↓reduceIte, ih, newlines_cons_newline, hline]
      split <;> rfl
    · simp only [List.cons_append, visible, hc, ↓reduceIte, ih, newlines_cons_of_ne hc]
      split <;> rfl

theorem visible_of_newline_notMem (window : Window) (line : Nat) {cs : List Char}
    (h : '\n' ∉ cs) : visible window line cs = if window.shows line then cs else [] := by
  induction cs with
  | nil => simp
  | cons c cs ih =>
    rw [List.mem_cons, not_or] at h
    simp only [visible, Ne.symm h.1, ↓reduceIte, ih h.2]
    split <;> rfl

theorem visible_newline (window : Window) (line : Nat) (cs : List Char) :
    visible window line ('\n' :: cs)
      = (if window.showsEnd line then ['\n'] else []) ++ visible window (line + 1) cs := by
  simp only [visible, ↓reduceIte]
  split <;> rfl

theorem visible_of_isPast {window : Window} {line : Nat} (h : window.isPast line = true)
    (cs : List Char) : visible window line cs = [] := by
  induction cs generalizing line with
  | nil => rfl
  | cons c cs ih =>
    have hs := Window.shows_eq_false_of_isPast h
    have he := Window.showsEnd_eq_false_of_shows hs
    have hnext := Window.isPast_mono h (Nat.le_succ line)
    by_cases hc : c = '\n'
    · simp [visible, hc, he, ih hnext]
    · simp [visible, hc, hs, ih h]

theorem visible_of_open {window : Window} (hf : window.first = none) (hl : window.last = none)
    (line : Nat) (cs : List Char) : visible window line cs = cs := by
  have hend : ∀ line, window.showsEnd line = true := by
    intro line
    simp [Window.showsEnd_iff, hf, hl]
  induction cs generalizing line with
  | nil => rfl
  | cons c cs ih =>
    simp only [visible, hend, Window.shows_of_showsEnd (hend _), ih]
    split <;> rfl

theorem visible_eq_ofLines_select (window : Window) (line : Nat) (cs : List Char) :
    visible window line cs = ofLines (window.select line (lines cs)) := by
  induction cs generalizing line with
  | nil =>
    simp only [visible_nil, lines_nil, Window.select]
    split <;> rfl
  | cons c cs ih =>
    by_cases hc : c = '\n'
    · subst hc
      rw [visible_newline, ih, lines_cons_newline]
      simp only [Window.select]
      by_cases hs : window.shows line = true
      · cases he : window.showsEnd line with
        | true =>
          -- the next line is shown, so that the empty line here is followed by a newline
          obtain ⟨row, more, hl⟩ := List.exists_cons_of_ne_nil (lines_ne_nil cs)
          have hne : window.select (line + 1) (lines cs) ≠ [] := by
            simp [hl, Window.select, Window.shows_succ_of_showsEnd he]
          simp [hs, ofLines_cons hne]
        | false =>
          rw [Window.select_of_isPast (Window.isPast_succ hs he)]
          simp [hs, ofLines]
      · have hfalse : window.shows line = false := by simpa using hs
        simp [hfalse, Window.showsEnd_eq_false_of_shows hfalse]
    · obtain ⟨row, more, hl⟩ := List.exists_cons_of_ne_nil (lines_ne_nil cs)
      simp only [visible, hc, ↓reduceIte, ih, lines_cons_of_ne hc hl, hl, Window.select]
      split
      · rw [ofLines_cons_cons]
      · rfl

/-- The lines of what is visible are those the window shows, if it shows any. -/
theorem lines_visible {window : Window} (h : window.shows window.firstLine = true)
    (hpos : 1 ≤ window.firstLine) {cs : List Char} (hex : window.firstLine ≤ newlines cs + 1) :
    lines (visible window 1 cs) = window.select 1 (lines cs) := by
  rw [visible_eq_ofLines_select]
  refine lines_ofLines (Window.select_ne_nil h hpos (by rwa [length_lines])) ?_
  intro row hmem
  exact newline_notMem_of_mem_lines (Window.mem_of_mem_select hmem)

/-- A window of one line shows this line of the text, if there is one. -/
theorem visible_lines_self (line first : Nat) (cs : List Char) :
    visible (.lines line line) first cs
      = if first ≤ line then (lines cs)[line - first]?.getD [] else [] := by
  rw [visible_eq_ofLines_select, Window.select_lines_self]
  split
  · cases (lines cs)[line - first]? <;> rfl
  · rfl

/-- A line is what a window of this line alone shows. -/
theorem visible_line {cs row : List Char} {line : Nat} (hpos : 1 ≤ line)
    (h : (lines cs)[line - 1]? = some row) : visible (.lines line line) 1 cs = row := by
  rw [visible_lines_self, if_pos hpos, h, Option.getD_some]

/-- In the text `above ++ shown ++ below` the stretch `shown` begins with the first character of
line `first`, and ends before the newline that ends line `last`, or else with the text. -/
structure Spans (first : Nat) (last : Option Nat) (above shown below : List Char) : Prop where
  begins : newlines above + 1 = first ∧ (above = [] ∨ above.getLast? = some '\n')
  within : ∀ line, last = some line → newlines (above ++ shown) + 1 ≤ line
  ends : below = [] ∨ below.head? = some '\n' ∧ last = some (newlines (above ++ shown) + 1)

/-- Lines above the window are passed over. -/
theorem visible_skip_above (window : Window) (cs : List Char) {line : Nat} (hpos : 1 ≤ line)
    (hle : line ≤ window.firstLine) (hex : window.firstLine ≤ line + newlines cs) :
    ∃ above rest, cs = above ++ rest
      ∧ visible window line cs = visible window window.firstLine rest
      ∧ line + newlines above = window.firstLine
      ∧ (above = [] ∨ above.getLast? = some '\n') := by
  induction cs generalizing line with
  | nil =>
    rw [newlines_nil] at hex
    have heq : line = window.firstLine := by omega
    exact ⟨[], [], rfl, rfl, heq, .inl rfl⟩
  | cons c cs ih =>
    by_cases heq : line = window.firstLine
    · exact ⟨[], c :: cs, rfl, by rw [heq], heq, .inl rfl⟩
    · have hs : window.shows line = false := by
        have hlt : line < window.firstLine := Nat.lt_of_le_of_ne hle heq
        simp [Window.shows, Window.isAhead_eq_decide hpos, hlt]
      by_cases hc : c = '\n'
      · subst hc
        rw [newlines_cons_newline] at hex
        obtain ⟨above, rest, rfl, hv, hcount, hlast⟩ :=
          @ih (line + 1) (by omega) (by omega) (by omega)
        refine ⟨'\n' :: above, rest, rfl, ?_, ?_, .inr ?_⟩
        · simp [visible, Window.showsEnd_eq_false_of_shows hs, hv]
        · rw [newlines_cons_newline]
          omega
        · rcases hlast with rfl | hlast
          · rfl
          · simp [List.getLast?_cons, hlast]
      · rw [newlines_cons_of_ne hc] at hex
        obtain ⟨above, rest, rfl, hv, hcount, hlast⟩ := ih hpos hle hex
        refine ⟨c :: above, rest, rfl, ?_, ?_, .inr ?_⟩
        · simp [visible, hc, hs, hv]
        · rwa [newlines_cons_of_ne hc]
        · rcases hlast with rfl | hlast
          · exact absurd hcount heq
          · simp [List.getLast?_cons, hlast]

/-- From a shown line on, the text is shown up to the end of the window's last line. -/
theorem visible_append_below {window : Window} {line : Nat} (hs : window.shows line = true)
    (cs : List Char) :
    ∃ below, cs = visible window line cs ++ below
      ∧ window.shows (line + newlines (visible window line cs)) = true
      ∧ (below = [] ∨ below.head? = some '\n'
        ∧ window.showsEnd (line + newlines (visible window line cs)) = false) := by
  induction cs generalizing line with
  | nil => exact ⟨[], rfl, hs, .inl rfl⟩
  | cons c cs ih =>
    by_cases hc : c = '\n'
    · subst hc
      cases he : window.showsEnd line with
      | true =>
        obtain ⟨below, happ, hshown, hbelow⟩ := ih (Window.shows_succ_of_showsEnd he)
        have hline : line + (newlines (visible window (line + 1) cs) + 1)
            = line + 1 + newlines (visible window (line + 1) cs) := by omega
        refine ⟨below, ?_, ?_, ?_⟩ <;>
          simp only [visible, he, ↓reduceIte, newlines_cons_newline]
        · rw [List.cons_append, ← happ]
        · rwa [hline]
        · rwa [hline]
      | false =>
        have hnone := visible_of_isPast (Window.isPast_succ hs he) cs
        refine ⟨'\n' :: cs, ?_, ?_, .inr ⟨rfl, ?_⟩⟩ <;> simp [visible, he, hnone, hs]
    · obtain ⟨below, happ, hshown, hbelow⟩ := ih hs
      refine ⟨below, ?_, ?_, ?_⟩ <;>
        simp only [visible, hc, hs, ↓reduceIte, newlines_cons_of_ne hc]
      · rw [List.cons_append, ← happ]
      · exact hshown
      · exact hbelow

/-- **What a window shows** of a text that reaches its first line. -/
theorem visible_spans {window : Window} (hinv : window.normalized.isInverted = false)
    {cs : List Char} (hex : window.normalized.firstLine ≤ newlines cs + 1) :
    ∃ above below, cs = above ++ visible window.normalized 1 cs ++ below
      ∧ Spans window.normalized.firstLine window.last above (visible window.normalized 1 cs)
        below := by
  have hpos := window.one_le_firstLine_normalized
  have hfirst := Window.shows_firstLine_normalized hinv
  rw [← window.last_normalized]
  generalize window.normalized = window at *
  obtain ⟨above, rest, rfl, hv, hcount, habove⟩ :=
    visible_skip_above window cs (Nat.le_refl 1) hpos (by omega)
  obtain ⟨below, happ, hshown, hbelow⟩ := visible_append_below hfirst rest
  have hline : newlines (above ++ visible window window.firstLine rest) + 1
      = window.firstLine + newlines (visible window window.firstLine rest) := by
    rw [newlines_append]
    omega
  refine ⟨above, below, ?_, ?_⟩
  · rw [hv, List.append_assoc, ← happ]
  · rw [hv]
    refine ⟨⟨by omega, habove⟩, ?_, ?_⟩
    · intro last hl
      rw [hline]
      exact (Window.shows_iff.1 hshown).2 last hl
    · rcases hbelow with hnil | ⟨hhead, hend⟩
      · exact .inl hnil
      · rw [hline]
        exact .inr ⟨hhead, Window.last_eq hshown hend⟩

end Text

end Listing
