import Listing.Proofs.Preservation

/-!
# The edges of an excerpt

The mark above an excerpt is read off the number of its first line. The mark below it is an ellipsis
if the walk was truncated, and that is decided by one token: the first that stands below the window.
In step with its lines a walk comes to such a token only by a cut at the end of the window's last
line, so the token begins with the newline that ends this line (`InStep.advances_or_ends`), and
together with what is pending behind it spells the rest of the source (`Text.fromEnd`). Every step
before keeps that rest (`truncated_iff_of_step`).
-/

namespace Listing

/-! ## What follows a line -/

namespace Text

/-- The part of a text from the newline that ends line `last`, if the text begins on `line`. -/
def fromEnd (last : Nat) : Nat → List Char → List Char
  | _, [] => []
  | line, c :: cs =>
    if c = '\n' then
      if line = last then c :: cs else fromEnd last (line + 1) cs
    else fromEnd last line cs

theorem fromEnd_append {last line : Nat} {front : List Char} (h : line + newlines front ≤ last)
    (back : List Char) :
    fromEnd last line (front ++ back) = fromEnd last (line + newlines front) back := by
  induction front generalizing line with
  | nil => rfl
  | cons c front ih =>
    by_cases hc : c = '\n'
    · subst hc
      rw [newlines_cons_newline] at h
      have hne : line ≠ last := by omega
      have hline : line + (newlines front + 1) = line + 1 + newlines front := by omega
      rw [List.cons_append, fromEnd, if_pos rfl, if_neg hne, ih (by omega), newlines_cons_newline,
        hline]
    · rw [newlines_cons_of_ne hc] at h ⊢
      rw [List.cons_append, fromEnd, if_neg hc, ih h]

theorem fromEnd_cons_newline (last : Nat) (cs : List Char) :
    fromEnd last last ('\n' :: cs) = '\n' :: cs := by
  simp [fromEnd]

/-- What stands from the end of a line on begins with the newline that ends it. -/
theorem fromEnd_eq_cons {last line : Nat} {cs below : List Char} {c : Char}
    (h : fromEnd last line cs = c :: below) :
    c = '\n' ∧ ∃ above, cs = above ++ c :: below ∧ line + newlines above = last := by
  induction cs generalizing line with
  | nil => cases h
  | cons d cs ih =>
    by_cases hd : d = '\n'
    · rw [fromEnd, if_pos hd] at h
      by_cases hline : line = last
      · rw [if_pos hline] at h
        cases h
        exact ⟨hd, [], rfl, hline⟩
      · rw [if_neg hline] at h
        obtain ⟨hc, above, rfl, hcount⟩ := ih h
        refine ⟨hc, d :: above, rfl, ?_⟩
        rw [hd, newlines_cons_newline]
        omega
    · rw [fromEnd, if_neg hd] at h
      obtain ⟨hc, above, rfl, hcount⟩ := ih h
      refine ⟨hc, d :: above, rfl, ?_⟩
      rwa [newlines_cons_of_ne hd]

/-- A text has something from the end of line `last` on, and not just the newline. -/
def GoesOn (last line : Nat) (cs : List Char) : Prop :=
  fromEnd last line cs ≠ [] ∧ fromEnd last line cs ≠ ['\n']

theorem goesOn_iff {last line : Nat} {cs : List Char} :
    GoesOn last line cs
      ↔ ∃ above below, cs = above ++ '\n' :: below ∧ line + newlines above = last
        ∧ '\n' :: below ≠ ['\n'] := by
  constructor
  · rintro ⟨hne, hmore⟩
    obtain ⟨c, below, hfrom⟩ := List.exists_cons_of_ne_nil hne
    obtain ⟨rfl, above, hcs, hcount⟩ := fromEnd_eq_cons hfrom
    exact ⟨above, below, hcs, hcount, hfrom ▸ hmore⟩
  · rintro ⟨above, below, rfl, hcount, hmore⟩
    have hfrom : fromEnd last line (above ++ '\n' :: below) = '\n' :: below := by
      rw [fromEnd_append (Nat.le_of_eq hcount), hcount, fromEnd_cons_newline]
    exact ⟨by simp [hfrom], by rwa [hfrom]⟩

end Text

/-! ## Truncated walks -/

namespace Walk

/-- A walk that has come below its window stops there. -/
theorem Yields.truncated_of_isPast {walk after : Walk} {views : List View}
    (h : Yields walk views after) (hfin : walk.finished = false) {token : Token}
    {rest : List Token} (hpending : walk.pending = token :: rest)
    (hpast : walk.window.isPast token.line = true) :
    after.truncated = !(token.text == "\n" && rest.isEmpty) := by
  cases h with
  | finished hf =>
    rw [hf] at hfin
    cases hfin
  | empty _ hempty =>
    rw [hempty] at hpending
    cases hpending
  | stop _ hfound =>
    rw [hpending] at hfound
    cases hfound
    rfl
  | skip _ hfound hnot =>
    rw [hpending] at hfound
    cases hfound
    rw [hpast] at hnot
    cases hnot
  | keep _ hfound hnot =>
    rw [hpending] at hfound
    cases hfound
    rw [hpast] at hnot
    cases hnot

open Text in
/-- One step does not change whether the text goes on below the window, and the step that is cut
at the end of the last line decides it. -/
theorem truncated_iff_of_step {walk after : Walk} {token : Token} {rest : List Token}
    {views : List View} {line last : Nat} (ha : walk.window.isActive = true)
    (hfin : walk.finished = false) (hin : InStep walk.window line (token :: rest))
    (hlast : walk.window.last = some last) (hne : ∀ found ∈ token :: rest, found.text ≠ "")
    (hp : walk.window.isPast token.line = false)
    (h : Yields (walk.past token ((cut walk.window token).2 ++ rest)) views after)
    (ih : ∀ next, InStep walk.window next ((cut walk.window token).2 ++ rest) →
      walk.window.isPast next = false →
      (after.truncated = true
        ↔ GoesOn last next (Token.spell ((cut walk.window token).2 ++ rest)))) :
    after.truncated = true ↔ GoesOn last line (Token.spell (token :: rest)) := by
  rcases hin.advances_or_ends ha hp with ⟨next, hadv, hnext⟩ | ⟨hend, row, below, ht, hr, hcut⟩
  · have hcount := (hadv.next_eq hnext).1
    have hle : next ≤ last := by simpa [Window.isPast, hlast] using hnext
    rw [ih next hadv.inStep hnext, spell_cut walk.window token rest, GoesOn, GoesOn,
      fromEnd_append (hcount ▸ hle), ← hcount]
  · -- the newline of the last line stands first in what is left of the token
    obtain rfl : line = last := by simpa [hend] using hlast
    have hpast : walk.window.isPast (token.line + 1) = true := by
      simp [Window.isPast, hend, hin.front token rest rfl]
    have hfrom : fromEnd line line (Token.spell (token :: rest))
        = '\n' :: (below ++ Token.spell rest) := by
      have hzero : line + newlines row = line := by rw [newlines_eq_zero.2 hr, Nat.add_zero]
      rw [Token.spell_cons, ht, List.append_assoc, fromEnd_append (Nat.le_of_eq hzero), hzero,
        List.cons_append, fromEnd_cons_newline]
    rw [hcut] at h
    rw [h.truncated_of_isPast hfin rfl hpast, GoesOn, hfrom]
    have hrest := Token.spell_eq_nil_iff fun found hfound =>
      hne found (List.mem_cons_of_mem _ hfound)
    simp [Token.remainder, ← String.toList_inj, hrest, imp_iff_not_or]

/-- **When a walk is truncated**: the text goes on below the last line of the window. -/
theorem Yields.truncated_iff {walk after : Walk} {views : List View} (h : Yields walk views after)
    (ha : walk.window.isActive = true) (hfin : walk.finished = false)
    (htr : walk.truncated = false) {line last : Nat} (hin : InStep walk.window line walk.pending)
    (hlast : walk.window.last = some last) (hp : walk.window.isPast line = false)
    (hne : ∀ token ∈ walk.pending, token.text ≠ "") :
    after.truncated = true ↔ Text.GoesOn last line (Token.spell walk.pending) := by
  induction h generalizing line with
  | finished hf =>
    rw [hf] at hfin
    cases hfin
  | empty _ hpending =>
    rw [hpending]
    simp [htr, Text.GoesOn, Text.fromEnd]
  | stop _ hpending hpast =>
    rw [hin.front _ _ hpending, hp] at hpast
    cases hpast
  | skip _ hpending hpast _ hrest ih =>
    rw [hpending] at hin hne ⊢
    exact truncated_iff_of_step ha hfin hin hlast hne hpast hrest fun next hin' hp' =>
      ih ha hfin htr hin' hlast hp' (text_ne_empty_of_mem_back hne)
  | keep _ hpending hpast _ hrest ih =>
    rw [hpending] at hin hne ⊢
    exact truncated_iff_of_step ha hfin hin hlast hne hpast hrest fun next hin' hp' =>
      ih ha hfin htr hin' hlast hp' (text_ne_empty_of_mem_back hne)

theorem Yields.truncated_of_open {walk after : Walk} {views : List View}
    (h : Yields walk views after) (hlast : walk.window.last = none) :
    after.truncated = walk.truncated := by
  induction h with
  | finished => rfl
  | empty => rfl
  | stop _ _ hpast => simp [Window.isPast, hlast] at hpast
  | skip _ _ _ _ _ ih => exact ih hlast
  | keep _ _ _ _ _ ih => exact ih hlast

/-- A walk from its start is truncated if its window ends, and the text goes on below it. -/
theorem truncated_start_iff {tokens : List Token} {window : Window}
    (hplaced : Token.Placed 1 tokens) (hsplit : Token.Splittable tokens)
    (hne : ∀ token ∈ tokens, token.text ≠ "") :
    (start tokens window).views.2.truncated = true
      ↔ ∃ last, window.last = some last ∧ window.normalized.firstLine ≤ last
        ∧ Text.GoesOn last 1 (Token.spell tokens) := by
  have hyields := yields_views (start tokens window)
  cases hlast : window.last with
  | none =>
    have hopen : (start tokens window).window.last = none := by
      rw [start, Window.last_normalized, hlast]
    rw [hyields.truncated_of_open hopen]
    simp [start]
  | some last =>
    have hlast' : (start tokens window).window.last = some last := by
      rw [start, Window.last_normalized, hlast]
    have hinv := @Window.isInverted_normalized_eq_false window
    simp only [hlast, Option.some.injEq, forall_eq'] at hinv
    cases hfin : window.normalized.isInverted with
    | true =>
      have hnot : ¬window.normalized.firstLine ≤ last := by simp [← hinv, hfin]
      rw [(hyields.eq_of_finished hfin).2]
      simp [start, hnot]
    | false =>
      have hle := hinv.1 hfin
      have hpos := window.one_le_firstLine_normalized
      have hpast : window.normalized.isPast 1 = false := by
        simp only [Window.isPast, Window.last_normalized, hlast, Option.any_some,
          decide_eq_false_iff_not]
        omega
      rw [hyields.truncated_iff (Window.isActive_normalized_of_last hlast) hfin rfl
        (.of_placed hplaced hsplit) hlast' hpast hne]
      simp [hle, start]

end Walk

/-! ## The marks -/

@[simp]
theorem Edge.ofMore_eq_ellipsis {more : Bool} : Edge.ofMore more = .ellipsis ↔ more = true := by
  cases more <;> simp [Edge.ofMore]

theorem leading_renderTokens (tokens : List Token) (window : Window) :
    (renderTokens tokens window).leading = .ofMore (decide (1 < window.normalized.firstLine)) := by
  rw [renderTokens, Page.start_eq, Page.foldl_push_ofRows]
  rfl

/-- **The edges of an excerpt are exact.** There is an ellipsis above it if the window begins below
line one, and below it if the window ends with a line that the source ends by a newline, and what
stands there from this newline on is more than the newline. -/
theorem render_edges_iff {source : String} (hlf : '\r' ∉ source.toList)
    {tokens : List Token} (h : tokenize source = .ok tokens) (window : Window) :
    ∃ excerpt, render source window = .ok excerpt
      ∧ (excerpt.leading = .ellipsis ↔ 1 < window.normalized.firstLine)
      ∧ (excerpt.trailing = .ellipsis
        ↔ ∃ last, window.last = some last ∧ window.normalized.firstLine ≤ last
          ∧ ∃ above below, source.toList = above ++ '\n' :: below ∧ 1 + newlines above = last
            ∧ '\n' :: below ≠ ['\n']) := by
  refine ⟨_, render_of_tokenize hlf h window, ?_, ?_⟩
  · simp [leading_renderTokens]
  · have htruncated := @Walk.truncated_start_iff tokens window.normalized (placed_tokenize h)
      (.of_formed fun token hmem => formed_of_mem_tokenize h hmem)
      (fun token hmem => text_ne_empty_of_mem_tokenize h hmem)
    simp only [Window.last_normalized, Window.normalized_normalized, Text.goesOn_iff,
      spell_tokenize h] at htruncated
    rw [← htruncated]
    simp [renderTokens, Page.finish]

/-- A comment over four lines that runs over both edges of the window. -/
theorem render_edges_iff_comment :
    ∃ excerpt, render "<?php /*\nb\nc\n*/" (.lines 2 3) = .ok excerpt
      ∧ excerpt.leading = .ellipsis ∧ excerpt.trailing = .ellipsis := by
  have h : (tokenize "<?php /*\nb\nc\n*/").toOption = some
      [⟨.tag .open_, "<?php ", 1⟩, ⟨.comment, "/*\nb\nc\n*/", 1⟩] := by decide +kernel
  obtain ⟨excerpt, hexcerpt, hleading, htrailing⟩ :=
    render_edges_iff (by decide) (Lexer.tokenize_of_toOption h) (.lines 2 3)
  refine ⟨excerpt, hexcerpt, hleading.2 (by decide), htrailing.2 ⟨3, rfl, by decide, ?_⟩⟩
  exact ⟨"<?php /*\nb\nc".toList, "*/".toList, by decide, by decide, by decide⟩

end Listing
