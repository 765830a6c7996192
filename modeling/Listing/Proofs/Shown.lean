import Listing.Proofs.Partition
import Listing.Walk

/-!
# What a walk shows

`Walk.Yields` says once what a walk can do: end, pass over a piece above the window, or show a
piece; each time the token at the front is cut and what is left of it goes back. Every fact about a
whole walk is an induction over it.

The invariant of a walk in a window that leaves lines out is `Walk.InStep`: the first pending token
stands on the line reached, and above the end of the window all pending tokens stand where the
newlines before them say. Below the window the second half is lost, as a token cut on the last line
keeps its newline for what is left, yet is counted one line further down; but then nothing more is
shown.

The main result says that the pieces of a walk are the stretch of the source from the beginning of
the first line of the window to the end of its last line, each on its true line.
-/

namespace Listing

namespace Walk

/-! ## Steps of a walk -/

/-- The pieces a walk shows, each with its view, and the walk at its end. -/
inductive Yields : Walk → List View → Walk → Prop
  | finished {walk : Walk} : walk.finished = true → Yields walk [] walk
  | empty {walk : Walk} : walk.finished = false → walk.pending = [] →
      Yields walk [] { walk with finished := true }
  | stop {walk : Walk} {token : Token} {rest : List Token} : walk.finished = false →
      walk.pending = token :: rest → walk.window.isPast token.line = true →
      Yields walk []
        { walk.past token rest with
          truncated := !(token.text == "\n" && rest.isEmpty)
          finished := true }
  | skip {walk after : Walk} {token : Token} {rest : List Token} {views : List View} :
      walk.finished = false → walk.pending = token :: rest →
      walk.window.isPast token.line = false →
      walk.window.isAhead (cut walk.window token).1.line = true →
      Yields (walk.past token ((cut walk.window token).2 ++ rest)) views after →
      Yields walk views after
  | keep {walk after : Walk} {token : Token} {rest : List Token} {views : List View} :
      walk.finished = false → walk.pending = token :: rest →
      walk.window.isPast token.line = false →
      walk.window.isAhead (cut walk.window token).1.line = false →
      Yields (walk.past token ((cut walk.window token).2 ++ rest)) views after →
      Yields walk
        (⟨(cut walk.window token).1, walk.history.push token,
          (cut walk.window token).2 ++ rest⟩ :: views) after

theorem yields_of_next?_none {walk : Walk} (h : walk.next?.1 = none) :
    Yields walk [] walk.next?.2 := by
  fun_induction next? walk with
  | case1 walk hf => exact .finished hf
  | case2 walk hf hp => exact .empty (by simpa using hf) hp
  | case3 walk hf token rest hp hpast => exact .stop (by simpa using hf) hp hpast
  | case4 walk hf token rest hp hpast piece hahead ih =>
    exact .skip (by simpa using hf) hp (by simpa using hpast) hahead (ih h)
  | case5 => cases h

theorem yields_of_next?_some {walk after : Walk} {views : List View} {piece : Token}
    (h : walk.next?.1 = some piece) (hv : Yields walk.next?.2 views after) :
    Yields walk (⟨piece, walk.next?.2.history, walk.next?.2.pending⟩ :: views) after := by
  fun_induction next? walk with
  | case1 => cases h
  | case2 => cases h
  | case3 => cases h
  | case4 walk hf token rest hp hpast piece' hahead ih =>
    exact .skip (by simpa using hf) hp (by simpa using hpast) hahead (ih h hv)
  | case5 walk hf token rest hp hpast piece' hahead =>
    cases h
    exact .keep (by simpa using hf) hp (by simpa using hpast) (by simpa using hahead) hv

theorem yields_views (walk : Walk) : Yields walk walk.views.1 walk.views.2 := by
  fun_induction views walk with
  | case1 walk after hnext =>
    have h := @yields_of_next?_none walk (by rw [hnext])
    rwa [hnext] at h
  | case2 walk piece after hnext found ih =>
    have h := @yields_of_next?_some walk _ _ piece (by rw [hnext]) (by rw [hnext]; exact ih)
    rwa [hnext] at h

end Walk

/-! ## Cutting a token -/

/-- Newlines stand only in tokens of kinds that may be split. -/
def Token.Splittable (tokens : List Token) : Prop :=
  ∀ token ∈ tokens, '\n' ∈ token.text.toList → token.kind.isSplittable = true

theorem Token.Splittable.tail {token : Token} {tokens : List Token}
    (h : Splittable (token :: tokens)) : Splittable tokens :=
  fun found hmem => h found (List.mem_cons_of_mem _ hmem)

theorem Token.Splittable.inline {tokens : List Token} (h : Splittable tokens) {token : Token}
    (hmem : token ∈ tokens) (hkind : token.kind.isSplittable = false) :
    '\n' ∉ token.text.toList := by
  intro hnewline
  rw [h token hmem hnewline] at hkind
  cases hkind

/-- A way to read tokens that agrees with their texts on what may be split, and finds no newlines
where there are none. -/
structure Token.Reading (read : Token → List Char) : Prop where
  splittable : ∀ token : Token, token.kind.isSplittable = true → read token = token.text.toList
  inline : ∀ token : Token, '\n' ∉ token.text.toList → '\n' ∉ read token

theorem Token.Reading.ofList {read : Token → List Char} (h : Reading read) {kind : Kind}
    (hk : kind.isSplittable = true) (text : List Char) (line : Nat) :
    read ⟨kind, String.ofList text, line⟩ = text := by
  rw [h.splittable ⟨kind, String.ofList text, line⟩ hk, String.toList_ofList]

theorem Token.reading_text : Token.Reading fun token => token.text.toList :=
  ⟨fun _ _ => rfl, fun _ h => h⟩

namespace Walk

theorem cut_of_inline (window : Window) {token : Token} (h : '\n' ∉ token.text.toList) :
    cut window token = (token, []) := by
  have hrow : ∀ c ∈ token.text.toList, (c != '\n') = true := by
    intro c hc
    have : c ≠ '\n' := fun hcn => h (hcn ▸ hc)
    simpa using this
  have hdrop : token.text.toList.dropWhile (· != '\n') = [] := by
    simpa using @List.dropWhile_append_of_pos _ _ _ [] hrow
  unfold cut Token.cut
  split
  · rw [hdrop]
  · rfl

theorem cut_of_newline {window : Window} {token : Token} {row below : List Char}
    (ha : window.isActive = true) (hs : token.kind.isSplittable = true)
    (ht : token.text.toList = row ++ '\n' :: below) (hr : '\n' ∉ row) :
    cut window token
      = if window.isAtEnd token.line then
          ({ token with text := String.ofList row },
            [token.remainder (String.ofList ('\n' :: below))])
        else
          ({ token with text := String.ofList (row ++ ['\n']) },
            if below.isEmpty then [] else [token.remainder (String.ofList below)]) := by
  have htake : token.text.toList.takeWhile (· != '\n') = row := by
    rw [ht, Text.takeWhile_append_cons hr]
  have hdrop : token.text.toList.dropWhile (· != '\n') = '\n' :: below := by
    rw [ht, Text.dropWhile_append_cons hr]
  simp only [cut, ha, hs, Bool.and_self, ↓reduceIte, Token.cut, hdrop, htake]

/-- A cut loses nothing of a token. -/
theorem text_cut_append (window : Window) (token : Token) :
    (cut window token).1.text.toList ++ Token.spell (cut window token).2
      = token.text.toList := by
  unfold cut
  split
  · unfold Token.cut
    dsimp only
    have hwhole := List.takeWhile_append_dropWhile (p := (· != '\n')) (l := token.text.toList)
    split
    · simp
    · next newline below hdrop =>
      rw [hdrop] at hwhole
      split
      · simpa [Token.remainder] using hwhole
      · cases below <;> simpa [Token.remainder] using hwhole
  · simp

theorem text_ne_empty_of_mem_cut {window : Window} {token back : Token}
    (h : back ∈ (cut window token).2) : back.text ≠ "" := by
  unfold cut at h
  split at h
  · unfold Token.cut at h
    dsimp only at h
    split at h
    · cases h
    · split at h
      · rw [List.mem_singleton.1 h]
        simp [Token.remainder]
      · next below _ _ =>
        cases below with
        | nil => cases h
        | cons c below =>
          rw [List.mem_singleton.1 h]
          simp [Token.remainder]
  · cases h

/-- The text of the pending tokens is that of the piece and of the tokens pending after it. -/
theorem spell_cut (window : Window) (token : Token) (rest : List Token) :
    Token.spell (token :: rest)
      = (cut window token).1.text.toList ++ Token.spell ((cut window token).2 ++ rest) := by
  rw [Token.spell_append, ← List.append_assoc, text_cut_append, Token.spell_cons]

theorem text_ne_empty_of_mem_back {window : Window} {token : Token} {rest : List Token}
    (h : ∀ found ∈ token :: rest, found.text ≠ "") :
    ∀ found ∈ (cut window token).2 ++ rest, found.text ≠ "" := by
  intro found hfound
  rcases List.mem_append.1 hfound with hfound | hfound
  · exact text_ne_empty_of_mem_cut hfound
  · exact h found (List.mem_cons_of_mem _ hfound)

/-- A cut leaves a token as it is, or its kind may be split. -/
theorem cut_eq_or_splittable (window : Window) {token piece : Token}
    (h : piece ∈ (cut window token).1 :: (cut window token).2) :
    piece = token ∨ piece.kind.isSplittable = true := by
  unfold cut at h
  split at h
  · next hsplit =>
    have hkind : token.kind.isSplittable = true := (Bool.and_eq_true_iff.1 hsplit).2
    unfold Token.cut at h
    dsimp only at h
    split at h
    · exact .inl (by simpa using h)
    · refine .inr ?_
      split at h
      · rcases List.mem_cons.1 h with rfl | h
        · exact hkind
        · rw [List.mem_singleton.1 h]
          exact hkind
      · rcases List.mem_cons.1 h with rfl | h
        · exact hkind
        · split at h
          · cases h
          · rw [List.mem_singleton.1 h]
            exact hkind
  · exact .inl (by simpa using h)

/-! ## What one step keeps -/

/-- The walk has reached `line`. -/
structure InStep (window : Window) (line : Nat) (pending : List Token) : Prop where
  front : ∀ token rest, pending = token :: rest → token.line = line
  placed : window.isPast line = false → Token.Placed line pending ∧ Token.Splittable pending

theorem InStep.of_placed {window : Window} {line : Nat} {pending : List Token}
    (hp : Token.Placed line pending) (hs : Token.Splittable pending) :
    InStep window line pending := by
  refine ⟨?_, fun _ => ⟨hp, hs⟩⟩
  rintro token rest rfl
  exact hp.1

/-- What a step from `line` to `next` leaves: the piece cut off the first token stands on `line`,
what is visible of the pending tokens is what is visible of the piece and of the tokens pending
after it, and unless the window ends here no line is lost. -/
structure Advances (window : Window) (line next : Nat) (token : Token) (rest : List Token) :
    Prop where
  inStep : InStep window next ((cut window token).2 ++ rest)
  line_eq : (cut window token).1.line = line
  next_le : next ≤ line + 1
  visible_eq : ∀ read, Token.Reading read →
    Text.visible window line ((token :: rest).flatMap read)
      = (if window.isAhead line then [] else read (cut window token).1)
        ++ Text.visible window next (((cut window token).2 ++ rest).flatMap read)
  next_eq : window.isPast next = false →
    next = line + newlines (cut window token).1.text.toList
      ∧ next + newlines (Token.spell ((cut window token).2 ++ rest))
        = line + newlines (Token.spell (token :: rest))

theorem Advances.of_inline {window : Window} {line : Nat} {token : Token} {rest : List Token}
    (hp : window.isPast line = false) (hplaced : Token.Placed line (token :: rest))
    (hsplit : Token.Splittable (token :: rest)) (h : '\n' ∉ token.text.toList) :
    Advances window line line token rest := by
  have hzero : newlines token.text.toList = 0 := newlines_eq_zero.2 h
  have hrest : Token.Placed line rest := by simpa [hzero] using hplaced.2
  have hcut := cut_of_inline window h
  refine ⟨?_, ?_, Nat.le_succ line, ?_, ?_⟩
  · rw [hcut]
    exact .of_placed hrest hsplit.tail
  · rw [hcut]
    exact hplaced.1
  · intro read hread
    have hinline := hread.inline token h
    rw [hcut, List.flatMap_cons, Text.visible_append, newlines_eq_zero.2 hinline,
      Text.visible_of_newline_notMem window line hinline]
    cases ha : window.isAhead line <;> simp [Window.shows, ha, hp]
  · intro _
    simp [hcut, hzero]

/-- What is visible of a token that holds a newline is its first row, that newline, and what stands
below. -/
theorem visible_flatMap_of_newline {window : Window} {line : Nat} {token : Token}
    {row below : List Char} (hp : window.isPast line = false)
    (hkind : token.kind.isSplittable = true) (ht : token.text.toList = row ++ '\n' :: below)
    (hr : '\n' ∉ row) {read : Token → List Char} (hread : Token.Reading read)
    (rest : List Token) :
    Text.visible window line ((token :: rest).flatMap read)
      = (if window.isAhead line then [] else row)
        ++ ((if window.showsEnd line then ['\n'] else [])
          ++ Text.visible window (line + 1) (below ++ rest.flatMap read)) := by
  rw [List.flatMap_cons, hread.splittable token hkind, ht, List.append_assoc,
    Text.visible_append, newlines_eq_zero.2 hr, List.cons_append, Text.visible_newline,
    Nat.add_zero, Text.visible_of_newline_notMem window line hr]
  cases hahead : window.isAhead line <;> simp [Window.shows, hahead, hp]

section Newline

variable {window : Window} {line : Nat} {token : Token} {rest : List Token} {row below : List Char}
  (ha : window.isActive = true) (hp : window.isPast line = false)
  (hplaced : Token.Placed line (token :: rest)) (hsplit : Token.Splittable (token :: rest))
  (ht : token.text.toList = row ++ '\n' :: below) (hr : '\n' ∉ row)

include ha hp hplaced hsplit ht hr in
/-- On the last line of the window the newline goes with what is left, which is below the window. -/
theorem Advances.of_last_line (hend : window.isAtEnd line = true) :
    Advances window line (line + 1) token rest := by
  have hkind : token.kind.isSplittable = true := hsplit token List.mem_cons_self (by simp [ht])
  have hline : token.line = line := hplaced.1
  have hcut := cut_of_newline ha hkind ht hr
  rw [hline, if_pos hend] at hcut
  have hpast : window.isPast (line + 1) = true := by rwa [Window.isPast_succ_eq]
  refine ⟨⟨?_, ?_⟩, ?_, Nat.le_refl _, ?_, ?_⟩
  · intro found more hfound
    rw [hcut] at hfound
    cases hfound
    simp [Token.remainder, hline]
  · intro hnot
    simp [hpast] at hnot
  · rw [hcut]
  · intro read hread
    have hpiece : read (cut window token).1 = row := by
      rw [hcut]
      exact hread.ofList hkind row line
    have hnone : window.showsEnd line = false := by simp [Window.showsEnd, hend]
    rw [visible_flatMap_of_newline hp hkind ht hr hread, hpiece, Text.visible_of_isPast hpast,
      Text.visible_of_isPast hpast, hnone]
    simp
  · intro hnot
    simp [hpast] at hnot

include ha hp hplaced hsplit ht hr in
theorem Advances.of_line_end (hend : window.isAtEnd line = false) :
    Advances window line (line + 1) token rest := by
  have hkind : token.kind.isSplittable = true := hsplit token List.mem_cons_self (by simp [ht])
  have hline : token.line = line := hplaced.1
  have hzero : newlines row = 0 := newlines_eq_zero.2 hr
  have hcount : newlines token.text.toList = newlines below + 1 := by
    rw [ht, newlines_append, newlines_cons_newline, hzero, Nat.zero_add]
  have hrest : Token.Placed (line + 1 + newlines below) rest := by
    have := hplaced.2
    rwa [hcount, Nat.add_comm (newlines below), ← Nat.add_assoc] at this
  have hcut := cut_of_newline ha hkind ht hr
  rw [hline, if_neg (by simp [hend])] at hcut
  -- an empty remainder is not put back, and nothing is lost by that
  have hback : ∀ read, Token.Reading read →
      ((cut window token).2 ++ rest).flatMap read = below ++ rest.flatMap read := by
    intro read hread
    rw [hcut]
    cases below with
    | nil => simp
    | cons c below =>
      have hrem : read (token.remainder (String.ofList (c :: below))) = c :: below :=
        hread.ofList hkind _ _
      simp only [List.isEmpty_cons, Bool.false_eq_true, ↓reduceIte, List.cons_append,
        List.nil_append, List.flatMap_cons, hrem]
  refine ⟨.of_placed ?_ ?_, ?_, Nat.le_refl _, ?_, ?_⟩
  · rw [hcut]
    cases below with
    | nil => simpa using hrest
    | cons c below =>
      refine ⟨by simp [Token.remainder, hline], ?_⟩
      simpa [Token.remainder] using hrest
  · rw [hcut]
    intro found hfound
    rcases List.mem_append.1 hfound with hfound | hfound
    · cases below with
      | nil => simp at hfound
      | cons c below =>
        rw [List.mem_singleton.1 hfound]
        exact fun _ => hkind
    · exact hsplit.tail found hfound
  · rw [hcut]
  · intro read hread
    have hpiece : read (cut window token).1 = row ++ ['\n'] := by
      rw [hcut]
      exact hread.ofList hkind _ line
    have hshown : window.showsEnd line = !window.isAhead line := by simp [Window.showsEnd, hend]
    rw [visible_flatMap_of_newline hp hkind ht hr hread, hback read hread, hpiece, hshown]
    cases window.isAhead line <;> simp
  · intro _
    have hspell : Token.spell ((cut window token).2 ++ rest) = below ++ Token.spell rest :=
      hback _ Token.reading_text
    have hpiece : newlines (cut window token).1.text.toList = 1 := by
      rw [hcut]
      simp [hzero]
    rw [hspell, hpiece, Token.spell_cons, newlines_append, newlines_append, hcount]
    omega

end Newline

/-- The ways of a step in a window that leaves lines out: over a token on one line, or over the
first line of a token and its newline. -/
theorem InStep.advances_cases {window : Window} {line : Nat} {token : Token} {rest : List Token}
    (ha : window.isActive = true) (h : InStep window line (token :: rest))
    (hp : window.isPast token.line = false) :
    token.line = line ∧ window.isPast line = false
      ∧ ('\n' ∉ token.text.toList ∧ Advances window line line token rest
        ∨ ∃ row below, token.kind.isSplittable = true ∧ token.text.toList = row ++ '\n' :: below
          ∧ '\n' ∉ row ∧ Advances window line (line + 1) token rest) := by
  have hline : token.line = line := h.front token rest rfl
  rw [hline] at hp
  obtain ⟨hplaced, hsplit⟩ := h.placed hp
  refine ⟨hline, hp, ?_⟩
  by_cases hmem : '\n' ∈ token.text.toList
  · obtain ⟨row, below, ht, hr⟩ := List.eq_append_cons_of_mem hmem
    refine .inr ⟨row, below, hsplit token List.mem_cons_self hmem, ht, hr, ?_⟩
    cases hend : window.isAtEnd line with
    | true => exact .of_last_line ha hp hplaced hsplit ht hr hend
    | false => exact .of_line_end ha hp hplaced hsplit ht hr hend
  · exact .inl ⟨hmem, .of_inline hp hplaced hsplit hmem⟩

/-- **One step of a walk** in a window that leaves lines out. -/
theorem InStep.advances {window : Window} {line : Nat} {token : Token} {rest : List Token}
    (ha : window.isActive = true) (h : InStep window line (token :: rest))
    (hp : window.isPast token.line = false) : ∃ next, Advances window line next token rest := by
  obtain ⟨-, -, ⟨-, hadv⟩ | ⟨-, -, -, -, -, hadv⟩⟩ := h.advances_cases ha hp
  · exact ⟨line, hadv⟩
  · exact ⟨line + 1, hadv⟩

/-- A step stays in the window, or its token is cut at the end of the window's last line. -/
theorem InStep.advances_or_ends {window : Window} {line : Nat} {token : Token} {rest : List Token}
    (ha : window.isActive = true) (h : InStep window line (token :: rest))
    (hp : window.isPast token.line = false) :
    (∃ next, Advances window line next token rest ∧ window.isPast next = false)
      ∨ window.last = some line ∧ ∃ row below, token.text.toList = row ++ '\n' :: below
        ∧ '\n' ∉ row
        ∧ cut window token = ({ token with text := String.ofList row },
            [token.remainder (String.ofList ('\n' :: below))]) := by
  obtain ⟨hline, hpast, ⟨-, hadv⟩ | ⟨row, below, hkind, ht, hr, hadv⟩⟩ := h.advances_cases ha hp
  · exact .inl ⟨line, hadv, hpast⟩
  · cases hend : window.isAtEnd line with
    | true =>
      have hcut := cut_of_newline ha hkind ht hr
      rw [if_pos (by rwa [hline])] at hcut
      exact .inr ⟨Window.last_eq_of_isAtEnd hpast hend, row, below, ht, hr, hcut⟩
    | false => exact .inl ⟨line + 1, hadv, by rwa [Window.isPast_succ_eq]⟩

/-! ## What a whole walk keeps -/

theorem Yields.eq_nil_of_isPast {walk after : Walk} {views : List View}
    (h : Yields walk views after) {line : Nat} (hin : InStep walk.window line walk.pending)
    (hp : walk.window.isPast line = true) : views = [] := by
  cases h with
  | finished => rfl
  | empty => rfl
  | stop => rfl
  | skip _ hpending hnot =>
    rw [hin.front _ _ hpending, hp] at hnot
    cases hnot
  | keep _ hpending hnot =>
    rw [hin.front _ _ hpending, hp] at hnot
    cases hnot

/-- However tokens are read, the pieces read as what is visible of the tokens. -/
theorem Yields.flatMap_eq_visible {walk after : Walk} {views : List View}
    (h : Yields walk views after) (ha : walk.window.isActive = true)
    (hfin : walk.finished = false) {line : Nat} (hin : InStep walk.window line walk.pending)
    {read : Token → List Char} (hread : Token.Reading read) :
    (views.map View.piece).flatMap read
      = Text.visible walk.window line (walk.pending.flatMap read) := by
  induction h generalizing line with
  | finished hf =>
    rw [hf] at hfin
    cases hfin
  | empty _ hpending => rw [hpending]; rfl
  | stop _ hpending hpast =>
    rw [hin.front _ _ hpending] at hpast
    rw [Text.visible_of_isPast hpast]
    rfl
  | skip _ hpending hpast hahead _ ih =>
    rw [hpending] at hin
    obtain ⟨next, hadv⟩ := hin.advances ha hpast
    rw [hadv.line_eq] at hahead
    rw [ih ha hfin hadv.inStep, hpending, hadv.visible_eq read hread, if_pos hahead]
    rfl
  | keep _ hpending hpast hahead _ ih =>
    rw [hpending] at hin
    obtain ⟨next, hadv⟩ := hin.advances ha hpast
    rw [hadv.line_eq] at hahead
    rw [List.map_cons, List.flatMap_cons, ih ha hfin hadv.inStep, hpending,
      hadv.visible_eq read hread, if_neg (by simp [hahead])]
    rfl

/-- The pieces follow each other without a gap, from the first line of the window on. -/
theorem Yields.placed {walk after : Walk} {views : List View} (h : Yields walk views after)
    {first : Nat} (hfirst : walk.window.first = some first) (hfin : walk.finished = false)
    {line : Nat} (hin : InStep walk.window line walk.pending) :
    Token.Placed (max line first) (views.map View.piece) := by
  have ha : walk.window.isActive = true := by simp [Window.isActive, hfirst]
  induction h generalizing line with
  | finished => trivial
  | empty => trivial
  | stop => trivial
  | skip _ hpending hpast hahead hrest ih =>
    rw [hpending] at hin
    obtain ⟨next, hadv⟩ := hin.advances ha hpast
    have hlt : line < first := by simpa [Window.isAhead, hfirst, hadv.line_eq] using hahead
    have hmax : max next first = max line first := by
      have := hadv.next_le
      omega
    exact hmax ▸ ih hfirst hfin hadv.inStep ha
  | @keep walk _ token rest _ _ hpending hpast hahead hrest ih =>
    rw [hpending] at hin
    obtain ⟨next, hadv⟩ := hin.advances ha hpast
    have hle : first ≤ line := by simpa [Window.isAhead, hfirst, hadv.line_eq] using hahead
    rw [Nat.max_eq_left hle]
    refine ⟨hadv.line_eq, ?_⟩
    cases hnext : walk.window.isPast next with
    | true =>
      rw [hrest.eq_nil_of_isPast hadv.inStep hnext]
      trivial
    | false =>
      have heq := (hadv.next_eq hnext).1
      have hmax : max next first = next := Nat.max_eq_left (by omega)
      rw [← heq, ← hmax]
      exact ih hfirst hfin hadv.inStep ha

/-- Every piece stands on a line that the window shows and the tokens reach. -/
theorem Yields.shows {walk after : Walk} {views : List View} (h : Yields walk views after)
    (ha : walk.window.isActive = true) (hfin : walk.finished = false) {line : Nat}
    (hin : InStep walk.window line walk.pending) :
    ∀ piece ∈ views.map View.piece, walk.window.shows piece.line = true
      ∧ piece.line ≤ line + newlines (Token.spell walk.pending) := by
  induction h generalizing line with
  | finished => simp
  | empty => simp
  | stop => simp
  | @skip walk _ token rest _ _ hpending hpast _ hrest ih =>
    rw [hpending] at hin
    obtain ⟨next, hadv⟩ := hin.advances ha hpast
    intro piece hmem
    cases hnext : walk.window.isPast next with
    | true =>
      rw [hrest.eq_nil_of_isPast hadv.inStep hnext] at hmem
      cases hmem
    | false =>
      rw [hpending, ← (hadv.next_eq hnext).2]
      exact ih ha hfin hadv.inStep piece hmem
  | @keep walk _ token rest _ _ hpending hpast hahead hrest ih =>
    rw [hpending] at hin
    obtain ⟨next, hadv⟩ := hin.advances ha hpast
    intro piece hmem
    rcases List.mem_cons.1 hmem with rfl | hmem
    · rw [hin.front _ _ rfl] at hpast
      rw [hadv.line_eq] at hahead ⊢
      exact ⟨by simp [Window.shows, hahead, hpast], Nat.le_add_right ..⟩
    · cases hnext : walk.window.isPast next with
      | true =>
        rw [hrest.eq_nil_of_isPast hadv.inStep hnext] at hmem
        cases hmem
      | false =>
        rw [hpending, ← (hadv.next_eq hnext).2]
        exact ih ha hfin hadv.inStep piece hmem

/-- A piece is a pending token, or its kind may be split. -/
theorem Yields.mem_pending_or_splittable {walk after : Walk} {views : List View}
    (h : Yields walk views after) :
    ∀ view ∈ views, view.piece ∈ walk.pending ∨ view.piece.kind.isSplittable = true := by
  -- what a cut puts back is the token itself or of a kind that may be split
  have hback : ∀ (walk : Walk) (token : Token) (rest : List Token) (piece : Token),
      walk.pending = token :: rest →
      piece ∈ (cut walk.window token).1 :: ((cut walk.window token).2 ++ rest) →
      piece ∈ walk.pending ∨ piece.kind.isSplittable = true := by
    intro walk token rest piece hpending hmem
    rw [← List.cons_append, List.mem_append] at hmem
    rw [hpending]
    rcases hmem with hmem | hmem
    · rcases cut_eq_or_splittable walk.window hmem with rfl | hkind
      · exact .inl List.mem_cons_self
      · exact .inr hkind
    · exact .inl (List.mem_cons_of_mem _ hmem)
  induction h with
  | finished => simp
  | empty => simp
  | stop => simp
  | @skip walk _ token rest _ _ hpending _ _ _ ih =>
    intro view hmem
    rcases ih view hmem with hfound | hkind
    · exact hback walk token rest view.piece hpending (List.mem_cons_of_mem _ hfound)
    · exact .inr hkind
  | @keep walk _ token rest _ _ hpending _ _ _ ih =>
    intro view hmem
    rcases List.mem_cons.1 hmem with rfl | hmem
    · exact hback walk token rest _ hpending List.mem_cons_self
    · rcases ih view hmem with hfound | hkind
      · exact hback walk token rest view.piece hpending (List.mem_cons_of_mem _ hfound)
      · exact .inr hkind

/-- A walk that is finished shows nothing and stays as it is. -/
theorem Yields.eq_of_finished {walk after : Walk} {views : List View}
    (h : Yields walk views after) (hfin : walk.finished = true) : views = [] ∧ after = walk := by
  cases h with
  | finished => exact ⟨rfl, rfl⟩
  | empty hf =>
    rw [hfin] at hf
    cases hf
  | stop hf =>
    rw [hfin] at hf
    cases hf
  | skip hf =>
    rw [hfin] at hf
    cases hf
  | keep hf =>
    rw [hfin] at hf
    cases hf

/-- In a window without ends every token is a piece. -/
theorem Yields.eq_pending {walk after : Walk} {views : List View} (h : Yields walk views after)
    (hfirst : walk.window.first = none) (hlast : walk.window.last = none)
    (hfin : walk.finished = false) : views.map View.piece = walk.pending := by
  have hcut : ∀ token, cut walk.window token = (token, []) := by
    intro token
    simp [cut, Window.isActive, hfirst]
  induction h with
  | finished hf =>
    rw [hf] at hfin
    cases hfin
  | empty _ hpending => rw [hpending]; rfl
  | stop _ _ hpast => simp [Window.isPast, hlast] at hpast
  | skip _ _ _ hahead => simp [Window.isAhead, hfirst] at hahead
  | keep _ hpending _ _ _ ih =>
    rw [List.map_cons, ih hfirst hlast hfin hcut, hpending]
    simp [hcut]

/-! ## A walk from its start -/

/-- The pieces a walk shows, in order. -/
def pieces (walk : Walk) : List Token :=
  walk.views.1.map View.piece

section Start

variable {tokens : List Token} {window : Window} (hplaced : Token.Placed 1 tokens)
  (hsplit : Token.Splittable tokens) (hinv : window.normalized.isInverted = false)

include hinv in
theorem pieces_start_of_open (ha : window.normalized.isActive = false) :
    (start tokens window).pieces = tokens := by
  obtain ⟨hf, hl⟩ := Window.eq_none_of_isActive_normalized ha
  exact (yields_views (start tokens window)).eq_pending hf hl hinv

include hplaced hsplit hinv in
theorem flatMap_pieces_start {read : Token → List Char} (hread : Token.Reading read) :
    (start tokens window).pieces.flatMap read
      = Text.visible window.normalized 1 (tokens.flatMap read) := by
  cases ha : window.normalized.isActive with
  | true =>
    exact (yields_views (start tokens window)).flatMap_eq_visible ha hinv
      (.of_placed hplaced hsplit) hread
  | false =>
    obtain ⟨hf, hl⟩ := Window.eq_none_of_isActive_normalized ha
    rw [pieces_start_of_open hinv ha, Text.visible_of_open hf hl]

include hplaced hsplit hinv in
theorem placed_pieces_start :
    Token.Placed window.normalized.firstLine (start tokens window).pieces := by
  cases hf : window.normalized.first with
  | none =>
    rw [pieces_start_of_open hinv (by simp [Window.isActive, hf])]
    simpa [Window.firstLine, hf] using hplaced
  | some first =>
    have hfirst : window.normalized.firstLine = first := by simp [Window.firstLine, hf]
    have hpos := hfirst ▸ window.one_le_firstLine_normalized
    have h := (yields_views (start tokens window)).placed hf hinv (.of_placed hplaced hsplit)
    rwa [Nat.max_eq_right hpos, ← hfirst] at h

include hplaced hsplit hinv in
theorem shows_of_mem_pieces_start {piece : Token} (hmem : piece ∈ (start tokens window).pieces) :
    window.normalized.shows piece.line = true
      ∧ piece.line ≤ 1 + newlines (Token.spell tokens) := by
  cases ha : window.normalized.isActive with
  | true =>
    exact (yields_views (start tokens window)).shows ha hinv (.of_placed hplaced hsplit) piece hmem
  | false =>
    rw [pieces_start_of_open hinv ha] at hmem
    obtain ⟨hf, hl⟩ := Window.eq_none_of_isActive_normalized ha
    obtain ⟨before, after, rfl⟩ := List.append_of_mem hmem
    refine ⟨Window.shows_iff.2 (by simp only [hf, hl]; simp), ?_⟩
    rw [hplaced.line_eq, Token.spell_append, newlines_append]
    omega

include hplaced hsplit hinv in
/-- A piece stands on a line of the window that the tokens reach. -/
theorem line_of_mem_pieces_start {piece : Token} (hmem : piece ∈ (start tokens window).pieces) :
    window.normalized.firstLine ≤ piece.line
      ∧ piece.line ≤ newlines (Token.spell tokens) + 1
      ∧ ∀ last, window.last = some last → piece.line ≤ last := by
  obtain ⟨hshows, hreach⟩ := shows_of_mem_pieces_start hplaced hsplit hinv hmem
  refine ⟨?_, by omega, fun last hlast => ?_⟩
  · have hpieces := placed_pieces_start hplaced hsplit hinv
    obtain ⟨before, after, heq⟩ := List.append_of_mem hmem
    rw [heq] at hpieces
    rw [hpieces.line_eq]
    exact Nat.le_add_right ..
  · exact (Window.shows_iff.1 hshows).2 last (by rw [Window.last_normalized, hlast])

theorem isInverted_of_mem_pieces_start {tokens : List Token} {window : Window} {piece : Token}
    (hmem : piece ∈ (start tokens window).pieces) : window.normalized.isInverted = false := by
  cases hinv : window.normalized.isInverted with
  | false => rfl
  | true =>
    have hnil := ((yields_views (start tokens window)).eq_of_finished hinv).1
    rw [pieces, hnil] at hmem
    cases hmem

include hplaced hsplit in
/-- Where a piece is shown, the window is not inverted and the tokens reach its first line. -/
theorem reaches_of_pieces_start (hne : (start tokens window).pieces ≠ []) :
    window.normalized.isInverted = false
      ∧ window.normalized.firstLine ≤ newlines (Token.spell tokens) + 1 := by
  obtain ⟨piece, hpiece⟩ := List.exists_mem_of_ne_nil _ hne
  have hinv := isInverted_of_mem_pieces_start hpiece
  have hline := line_of_mem_pieces_start hplaced hsplit hinv hpiece
  exact ⟨hinv, by omega⟩

end Start

end Walk

/-! ## The contract of a token list -/

/-- What a walk may rely on: no token is empty, each stands on the line that the newlines before it
say, and newlines stand only where a token may be split. -/
structure Token.Contract (tokens : List Token) : Prop where
  texts : ∀ token ∈ tokens, token.text ≠ ""
  lines : ∀ before token after, tokens = before ++ token :: after →
    token.line = 1 + newlines (spell before)
  splittable : Splittable tokens

/-- **A walk shows exactly its window.** The pieces spell the stretch of the source from the
beginning of the window's first line to the end of its last, each piece on its true line and none
outside the window; where the source does not reach the first line there are none. A window without
ends shows the tokens as they are. -/
theorem walk_shows_exactly {tokens : List Token} (h : Token.Contract tokens) {window : Window}
    (hinv : window.normalized.isInverted = false) :
    let pieces := (Walk.start tokens window).pieces
    let first := window.normalized.firstLine
    (newlines (Token.spell tokens) + 1 < first → pieces = [])
      ∧ (first ≤ newlines (Token.spell tokens) + 1 → ∃ above below,
          Token.spell tokens = above ++ Token.spell pieces ++ below
            ∧ Text.Spans first window.last above (Token.spell pieces) below
            ∧ ∀ before piece after, pieces = before ++ piece :: after →
                piece.line = 1 + newlines (above ++ Token.spell before))
      ∧ (∀ piece ∈ pieces, first ≤ piece.line ∧ ∀ last, window.last = some last → piece.line ≤ last)
      ∧ (window.first = none → window.last = none → pieces = tokens) := by
  intro pieces first
  have hplaced : Token.Placed 1 tokens := .of_line_eq h.lines
  have hline : ∀ before piece after, pieces = before ++ piece :: after →
      piece.line = first + newlines (Token.spell before) := by
    intro before piece after hsplit
    have hpieces : Token.Placed first pieces :=
      Walk.placed_pieces_start hplaced h.splittable hinv
    rw [hsplit] at hpieces
    exact hpieces.line_eq
  have hmem := fun piece (hpiece : piece ∈ pieces) =>
    Walk.line_of_mem_pieces_start hplaced h.splittable hinv hpiece
  refine ⟨?_, ?_, ?_, ?_⟩
  · intro hlt
    refine List.eq_nil_iff_forall_not_mem.2 fun piece hpiece => ?_
    obtain ⟨hge, hle, -⟩ := hmem piece hpiece
    omega
  · intro hle
    have hspell : Token.spell pieces = Text.visible window.normalized 1 (Token.spell tokens) :=
      Walk.flatMap_pieces_start hplaced h.splittable hinv Token.reading_text
    obtain ⟨above, below, htext, hspans⟩ := Text.visible_spans hinv hle
    rw [← hspell] at htext hspans
    refine ⟨above, below, htext, hspans, ?_⟩
    intro before piece after hsplit
    have hbegins := hspans.begins.1
    rw [hline before piece after hsplit, newlines_append]
    omega
  · intro piece hpiece
    obtain ⟨hge, -, hlast⟩ := hmem piece hpiece
    exact ⟨hge, hlast⟩
  · intro hf hl
    exact Walk.pieces_start_of_open hinv (Window.isActive_normalized_of_none hf hl)

/-- A comment over three lines of which the last two are shown, with a token before and after. -/
theorem walk_shows_comment_tail :
    let tokens : List Token := [⟨.name, "a", 1⟩, ⟨.comment, "/*\nb\n*/", 1⟩, ⟨.html, "c\nd", 3⟩]
    let pieces := (Walk.start tokens (.lines 2 3)).pieces
    Token.Contract tokens
      ∧ Token.spell pieces = "b\n*/c".toList
      ∧ (∃ above below, Token.spell tokens = above ++ Token.spell pieces ++ below
          ∧ Text.Spans 2 (some 3) above (Token.spell pieces) below
          ∧ ∀ before piece after, pieces = before ++ piece :: after →
              piece.line = 1 + newlines (above ++ Token.spell before))
      ∧ ∀ piece ∈ pieces, 2 ≤ piece.line ∧ piece.line ≤ 3 := by
  intro tokens pieces
  have hplaced : Token.Placed 1 tokens := ⟨rfl, rfl, rfl, trivial⟩
  have hcontract : Token.Contract tokens := by
    refine ⟨by decide, fun before token after hsplit => ?_, by unfold Token.Splittable; decide⟩
    rw [hsplit] at hplaced
    exact hplaced.line_eq
  have hwindow : (Window.lines 2 3).normalized.isInverted = false := rfl
  obtain ⟨-, hspans, hlines, -⟩ := walk_shows_exactly hcontract hwindow
  refine ⟨hcontract, ?_, hspans (by decide), ?_⟩
  · rw [Token.spell, Walk.flatMap_pieces_start hplaced hcontract.splittable hwindow
      Token.reading_text]
    decide
  · intro piece hmem
    exact ⟨(hlines piece hmem).1, (hlines piece hmem).2 3 rfl⟩

end Listing
