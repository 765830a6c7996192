import Listing.Proofs.Elements
import Listing.Proofs.Numbering

/-!
# Pages filled by a machine

A machine that fills a page counts its lines in words (`Page.push?`). What it has after a run of
spans is what is had by counting without end, put in words (`Page.inWords`): each step of the one is
a step of the other (`Page.bind_push?_inWords`), so this is so for a run (`Page.foldlM_push?_start`).
The page then has a line for each line of the text, and only its numbers tell that it was filled by
a machine, if the text goes past the greatest one (`Page.lines_hold_text`). That of a source with
no more lines than there are numbers does not (`renderTokens_on_machine`).
-/

namespace Listing

open Text

/-- A run from what is held is what is held of the run, if that is so for each step. -/
theorem bind_foldlM_of_step {α β : Type} {held : β → Option β} {step? : β → α → Option β}
    {step : β → α → β} {P : β → Prop}
    (hstep : ∀ b a, P b → (held b).bind (step? · a) = held (step b a))
    (hkeep : ∀ b a, P b → P (step b a)) {b : β} (h : P b) (items : List α) :
    (held b).bind (fun b => items.foldlM step? b) = held (items.foldl step b) := by
  induction items generalizing b with
  | nil => exact Option.bind_fun_some (held b)
  | cons a items ih =>
    calc (held b).bind (fun b => (a :: items).foldlM step? b)
      _ = ((held b).bind (step? · a)).bind fun b => items.foldlM step? b := by
        rw [Option.bind_assoc]
        rfl
      _ = held ((a :: items).foldl step b) := by
        rw [hstep b a h, ih (hkeep b a h), List.foldl_cons]

/-- The line with its number in a word. -/
def Line.wrapped (focus : Option Nat) (line : Line) : Line :=
  { number := line.number % (Window.maxLine + 1)
    highlighted := focus == some (line.number % (Window.maxLine + 1))
    content := line.content }

namespace Page

/-- What a machine has of the page, if it has not stopped. -/
def inWords (overflow : Overflow) (page : Page) : Option Page :=
  match overflow with
  | .stop => if page.nextNumber ≤ Window.maxLine + 1 then some page else none
  | .wrap => some { page with filled := page.filled.map (Line.wrapped page.focus) }

/-! ## One step -/

theorem firstLine_openLine (page : Page) : page.openLine.firstLine = page.firstLine := rfl

theorem nextNumber_openLine (page : Page) : page.openLine.nextNumber = page.nextNumber + 1 := rfl

theorem firstLine_writePart (page : Page) (span : Span) (text : List Char) :
    (page.writePart span text).firstLine = page.firstLine := by
  unfold writePart write
  split
  · rfl
  · split <;> rfl

theorem nextNumber_writePart (page : Page) (span : Span) (text : List Char) :
    (page.writePart span text).nextNumber = page.nextNumber := by
  obtain ⟨firstLine, focus, filled⟩ := page
  unfold writePart
  split
  · rfl
  · cases filled <;> rfl

theorem openLine?_stop {page : Page} (h : page.firstLine ≤ Window.maxLine) :
    page.openLine? .stop
      = if page.nextNumber ≤ Window.maxLine then some page.openLine else none := by
  obtain ⟨firstLine, focus, filled⟩ := page
  cases filled with
  | nil => exact (if_pos h).symm
  | cons line above => exact apply_ite (Option.map _) _ _ _

theorem openLine?_wrap {page : Page} (h : page.firstLine ≤ Window.maxLine) :
    openLine? .wrap { page with filled := page.filled.map (Line.wrapped page.focus) }
      = page.openLine.inWords .wrap := by
  obtain ⟨firstLine, focus, filled⟩ := page
  cases filled with
  | nil =>
    have hword : firstLine % (Window.maxLine + 1) = firstLine :=
      Nat.mod_eq_of_lt (Nat.lt_succ_of_le h)
    simp [openLine?, nextNumber?, inWords, openLine, addLine, nextNumber, Line.wrapped, hword]
  | cons line above =>
    simp [openLine?, nextNumber?, inWords, openLine, addLine, nextNumber, Line.wrapped,
      Overflow.word?]

/-- A line opened in words is the line opened, put in words. -/
theorem bind_openLine?_inWords {page : Page} (h : page.firstLine ≤ Window.maxLine)
    (overflow : Overflow) :
    (page.inWords overflow).bind (openLine? overflow) = page.openLine.inWords overflow := by
  cases overflow with
  | stop =>
    simp only [inWords, nextNumber_openLine, Nat.add_le_add_iff_right]
    by_cases hnext : page.nextNumber ≤ Window.maxLine
    · simp [hnext, Nat.le_succ_of_le hnext, openLine?_stop h]
    · by_cases hlast : page.nextNumber ≤ Window.maxLine + 1 <;>
        simp [hnext, hlast, openLine?_stop h]
  | wrap => exact openLine?_wrap h

theorem map_writePart_inWords (page : Page) (span : Span) (text : List Char)
    (overflow : Overflow) :
    (page.inWords overflow).map (·.writePart span text)
      = (page.writePart span text).inWords overflow := by
  cases overflow with
  | stop =>
    simp only [inWords, nextNumber_writePart]
    split <;> rfl
  | wrap =>
    obtain ⟨firstLine, focus, filled⟩ := page
    simp only [inWords, writePart, Option.map_some]
    split
    · rfl
    · cases filled <;> rfl

theorem filled_isEmpty_inWords {page held : Page} {overflow : Overflow}
    (h : page.inWords overflow = some held) : held.filled.isEmpty = page.filled.isEmpty := by
  cases overflow with
  | stop =>
    simp only [inWords, Option.ite_none_right_eq_some, Option.some.injEq] at h
    rw [h.2]
  | wrap =>
    cases h
    exact List.isEmpty_map

/-! ## A run -/

theorem firstLine_writeLines (page : Page) (span : Span) (texts : List (List Char)) :
    (page.writeLines span texts).firstLine = page.firstLine := by
  cases texts with
  | nil => rfl
  | cons text more =>
    rw [writeLines, ← firstLine_writePart page span text]
    generalize page.writePart span text = current
    induction more generalizing current with
    | nil => rfl
    | cons text more ih => rw [List.foldl_cons, ih, firstLine_writePart, firstLine_openLine]

theorem firstLine_push (page : Page) (span : Span) :
    (page.push span).firstLine = page.firstLine := by
  rw [push, firstLine_writeLines]
  split <;> rfl

/-- The lines of a text, written in words, are the lines of the text, put in words. -/
theorem bind_writeLines?_inWords {page : Page} (h : page.firstLine ≤ Window.maxLine)
    (overflow : Overflow) (span : Span) (texts : List (List Char)) :
    (page.inWords overflow).bind (fun held => held.writeLines? overflow span texts)
      = (page.writeLines span texts).inWords overflow := by
  cases texts with
  | nil => exact Option.bind_fun_some _
  | cons text more =>
    have hstep : ∀ (page : Page) (part : List Char), page.firstLine ≤ Window.maxLine →
        (page.inWords overflow).bind
            (fun held => (held.openLine? overflow).map (·.writePart span part))
          = (page.openLine.writePart span part).inWords overflow := by
      intro page part h
      rw [← map_writePart_inWords, ← bind_openLine?_inWords h, Option.map_bind]
      rfl
    have hkeep : ∀ (page : Page) (part : List Char), page.firstLine ≤ Window.maxLine →
        (page.openLine.writePart span part).firstLine ≤ Window.maxLine := by
      intro page part h
      rwa [firstLine_writePart]
    have hfirst : (page.writePart span text).firstLine ≤ Window.maxLine := by
      rwa [firstLine_writePart]
    rw [writeLines, ← bind_foldlM_of_step hstep hkeep hfirst, ← map_writePart_inWords,
      Option.bind_map]
    rfl

/-- A span pushed in words is the span pushed, put in words. -/
theorem bind_push?_inWords {page : Page} (h : page.firstLine ≤ Window.maxLine)
    (overflow : Overflow) (span : Span) :
    (page.inWords overflow).bind (fun held => held.push? overflow span)
      = (page.push span).inWords overflow := by
  have hpush : (page.inWords overflow).bind (fun held => held.push? overflow span)
      = (page.inWords overflow).bind fun held =>
        (if page.filled.isEmpty then held.openLine? overflow else some held).bind fun opened =>
          opened.writeLines? overflow span (Text.lines span.text.toList) := by
    refine Option.bind_congr fun held hheld => ?_
    rw [push?, filled_isEmpty_inWords hheld]
    split <;> rfl
  rw [hpush, push]
  split
  · have hopen : page.openLine.firstLine ≤ Window.maxLine := h
    rw [← Option.bind_assoc, bind_openLine?_inWords h, bind_writeLines?_inWords hopen]
  · simp only [Option.bind_some]
    exact bind_writeLines?_inWords h overflow span _

/-- **What a machine has after a run of spans** is what is had by counting without end, in words. -/
theorem foldlM_push?_start (overflow : Overflow) {window : Window}
    (h : window.firstLine ≤ Window.maxLine) (spans : List Span) :
    spans.foldlM (push? overflow) (start window)
      = (spans.foldl push (start window)).inWords overflow := by
  have hstart : (start window).inWords overflow = some (start window) := by
    cases overflow with
    | stop => exact if_pos (Nat.le_succ_of_le h)
    | wrap => rfl
  have hkeep : ∀ (page : Page) (span : Span), page.firstLine ≤ Window.maxLine →
      (page.push span).firstLine ≤ Window.maxLine := by
    intro page span h
    rwa [firstLine_push]
  have hstep : ∀ (page : Page) (span : Span), page.firstLine ≤ Window.maxLine →
      (page.inWords overflow).bind (push? overflow · span)
        = (page.push span).inWords overflow :=
    fun _ span h => bind_push?_inWords h overflow span
  have hstartFirst : (start window).firstLine ≤ Window.maxLine := h
  rw [← bind_foldlM_of_step hstep hkeep hstartFirst, hstart, Option.bind_some]

/-! ## Contents in words -/

section Contents

variable {overflow : Overflow} {firstLine : Nat} {focus : Option Nat} {rows : List (List Char)}

theorem inWords_ofRows_eq_none_iff :
    (ofRows firstLine focus rows).inWords overflow = none
      ↔ overflow = .stop ∧ Window.maxLine + 1 < firstLine + rows.length := by
  cases overflow with
  | stop =>
    rw [inWords, nextNumber_ofRows, ite_eq_right_iff]
    simp
  | wrap => simp [inWords]

theorem map_wrapped_numbered (h : firstLine + rows.length ≤ Window.maxLine + 1) :
    (numbered firstLine focus rows).map (Line.wrapped focus) = numbered firstLine focus rows := by
  have hsame : ∀ line ∈ numbered firstLine focus rows, Line.wrapped focus line = id line := by
    intro line hline
    obtain ⟨i, hi, rfl⟩ := List.mem_mapIdx.1 hline
    have hword : (firstLine + i) % (Window.maxLine + 1) = firstLine + i :=
      Nat.mod_eq_of_lt (by omega)
    rw [Line.wrapped, hword, id_eq]
  rw [List.map_congr_left hsame, List.map_id]

/-- Contents whose lines all have numbers are the same in words. -/
theorem inWords_ofRows (h : firstLine + rows.length ≤ Window.maxLine + 1) :
    (ofRows firstLine focus rows).inWords overflow = some (ofRows firstLine focus rows) := by
  cases overflow with
  | stop => exact if_pos (by rwa [nextNumber_ofRows])
  | wrap => rw [inWords, ofRows, List.map_reverse, map_wrapped_numbered h]

theorem lines_inWords_ofRows {page : Page}
    (h : (ofRows firstLine focus rows).inWords overflow = some page) :
    page.lines = (numbered firstLine focus rows).map (Line.wrapped focus) := by
  cases overflow with
  | stop =>
    have hfits : firstLine + rows.length ≤ Window.maxLine + 1 := by
      by_contra hover
      rw [inWords_ofRows_eq_none_iff.2 ⟨rfl, Nat.lt_of_not_le hover⟩] at h
      cases h
    rw [inWords_ofRows hfits] at h
    cases h
    rw [lines_ofRows, map_wrapped_numbered hfits]
  | wrap =>
    cases h
    rw [lines, ofRows, List.map_reverse, List.reverse_reverse]

/-- A line of contents in words. -/
theorem getElem?_map_wrapped_numbered {i : Nat} {line : Line}
    (h : ((numbered firstLine focus rows).map (Line.wrapped focus))[i]? = some line) :
    ∃ row, rows[i]? = some row ∧ line.number = (firstLine + i) % (Window.maxLine + 1)
      ∧ line.highlighted = (focus == some line.number) ∧ line.content = String.ofList row := by
  rw [List.getElem?_map, Option.map_eq_some_iff] at h
  obtain ⟨found, hfound, rfl⟩ := h
  obtain ⟨row, hrow, hnumber, -, hcontent⟩ := getElem?_numbered hfound
  exact ⟨row, hrow, by rw [Line.wrapped, hnumber], rfl, hcontent⟩

end Contents

/-- **Lines hold their text.** A machine fills a page with any run of spans, unless it is one that
stops past the greatest number and the text has a line there. The page has a line for each line of
the text, in order and numbered in words from the first line of the window on; each is a run of
escaped text and elements and reads, without its tags, as the line of the text. -/
theorem lines_hold_text (overflow : Overflow) {window : Window}
    (hfirst : window.firstLine ≤ Window.maxLine) {spans : List Span}
    (hkeys : ∀ span ∈ spans, span.ClosedKeys) :
    let text := spans.flatMap (·.text.toList)
    let filled := spans.foldlM (push? overflow) (start window)
    (filled = none
        ↔ overflow = .stop ∧ spans ≠ [] ∧ Window.maxLine < window.firstLine + newlines text)
      ∧ ∀ page, filled = some page →
        (spans = [] → page.lines = [])
        ∧ (spans ≠ [] → page.lines.length = 1 + newlines text
          ∧ ∀ i line, page.lines[i]? = some line →
            line.number = (window.firstLine + i) % (Window.maxLine + 1)
            ∧ (window.firstLine + newlines text ≤ Window.maxLine →
              line.number = window.firstLine + i)
            ∧ (line.highlighted = true ↔ window.focus = some line.number)
            ∧ Run line.content.toList
            ∧ (text.splitOn '\n')[i]?
              = some (decodeEntities (dropTags line.content.toList))) := by
  intro text filled
  have hfilled : filled = (ofRows window.firstLine window.focus
      (spans.foldl (fun rows span => glue rows span.rows) [])).inWords overflow := by
    rw [← foldl_push_ofRows, ← start_eq, ← foldlM_push?_start overflow hfirst]
  by_cases hne : spans = []
  · subst hne
    have hstart : filled = some (start window) := rfl
    rw [hstart]
    refine ⟨by simp, ?_⟩
    rintro page ⟨rfl⟩
    exact ⟨fun _ => rfl, fun h => absurd rfl h⟩
  have hrows := Span.forall₂_holds_spans hkeys hne
  have hlength : (spans.foldl (fun rows span => glue rows span.rows) []).length
      = 1 + newlines text := by
    rw [hrows.length_eq, ← lines_eq_splitOn, length_lines, Nat.add_comm]
  refine ⟨?_, fun page hpage => ⟨fun h => absurd h hne, fun _ => ?_⟩⟩
  · have hover : Window.maxLine + 1 < window.firstLine + (1 + newlines text)
        ↔ Window.maxLine < window.firstLine + newlines text := by omega
    rw [hfilled, inWords_ofRows_eq_none_iff, hlength, hover]
    exact and_congr_right' (and_iff_right hne).symm
  · rw [lines_inWords_ofRows (hfilled.symm.trans hpage)]
    refine ⟨?_, fun i line hline => ?_⟩
    · rw [List.length_map, numbered, List.length_mapIdx, hlength]
    · obtain ⟨row, hrow, hnumber, hlight, hcontent⟩ := getElem?_map_wrapped_numbered hline
      obtain ⟨part, hpart, hholds⟩ := getElem?_of_forall₂ hrows hrow
      have hi := (List.getElem?_eq_some_iff.1 hrow).1
      rw [hcontent, String.toList_ofList, hholds.decode_eq]
      refine ⟨hnumber, fun hfits => ?_, ?_, hholds.run, hpart⟩
      · rw [hnumber, Nat.mod_eq_of_lt (by omega)]
      · rw [hlight, beq_iff_eq]

/-- A label, a value and texts that look like markup, over three lines of which the second is
highlighted. -/
theorem lines_hold_text_two_spans :
    let window : Window := { first := some 7, focus := some 8 }
    let spans : List Span :=
      [⟨some "a\"><b", [("data-quote", "'")], "<i>\n&lt;"⟩, ⟨none, [], ">\n"⟩]
    window.firstLine ≤ Window.maxLine
      ∧ (∀ span ∈ spans, span.ClosedKeys)
      ∧ ∃ page, spans.foldlM (push? .stop) (start window) = some page
        ∧ page.lines.length = 3
        ∧ ∀ i line, page.lines[i]? = some line → line.number = 7 + i
          ∧ (line.highlighted = true ↔ some 8 = some line.number)
          ∧ Run line.content.toList
          ∧ ("<i>\n&lt;>\n".toList.splitOn '\n')[i]?
            = some (decodeEntities (dropTags line.content.toList)) := by
  intro window spans
  have hfirst : window.firstLine ≤ Window.maxLine := by decide
  have hkeys : ∀ span ∈ spans, span.ClosedKeys := by
    simp [spans, Span.ClosedKeys]
  have hfits : window.firstLine + newlines (spans.flatMap (·.text.toList)) ≤ Window.maxLine := by
    decide
  obtain ⟨hnone, hpages⟩ := lines_hold_text .stop hfirst hkeys
  obtain ⟨page, hpage⟩ := Option.ne_none_iff_exists'.1
    (mt hnone.1 fun hover => Nat.not_lt.2 hfits hover.2.2)
  obtain ⟨hlength, hlines⟩ := (hpages page hpage).2 (by simp [spans])
  refine ⟨hfirst, hkeys, page, hpage, hlength, fun i line hline => ?_⟩
  obtain ⟨-, hnumber, hheld⟩ := hlines i line hline
  exact ⟨hnumber hfits, hheld⟩

/-- Two lines from the greatest number on. -/
example : [Overflow.stop, .wrap].map (fun overflow =>
      ([⟨none, [], "a\nb"⟩].foldlM (push? overflow) (start (.fromLine Window.maxLine))).map
        fun page => page.lines.map Line.number)
    = [none, some [Window.maxLine, 0]] := by decide +kernel

end Page

/-- **Every machine renders a source alike**, if it has numbers for all lines of the source. -/
theorem renderTokens_on_machine {source : String} {tokens : List Token}
    (h : tokenize source = .ok tokens) (hlines : newlines source.toList < Window.maxLine)
    (window : Window) (overflow : Overflow) :
    let walk := Walk.start tokens window
    ∃ page, (walk.views.1.map Walk.View.span).foldlM (Page.push? overflow) (.start walk.window)
        = some page
      ∧ renderTokens tokens window = page.finish walk.views.2.truncated := by
  intro walk
  refine ⟨_, ?_, rfl⟩
  have hplaced := placed_tokenize h
  have hformed := fun token (hmem : token ∈ tokens) => formed_of_mem_tokenize h hmem
  by_cases hnil : walk.pieces = []
  · have hviews : walk.views.1 = [] := List.map_eq_nil_iff.1 hnil
    rw [hviews]
    rfl
  · obtain ⟨-, hreach⟩ := Walk.reaches_of_pieces_start hplaced (.of_formed hformed) hnil
    have hnumbers := congrArg List.length (map_number_renderTokens hplaced hformed hnil)
    rw [lines_renderTokens, Page.map_number_numbered, List.length_range', List.length_range',
      spell_tokenize h] at hnumbers
    rw [spell_tokenize h] at hreach
    have hlast : window.last.elim (newlines source.toList + 1)
        (min · (newlines source.toList + 1)) ≤ newlines source.toList + 1 := by
      cases window.last with
      | none => exact Nat.le_refl _
      | some last => exact Nat.min_le_right _ _
    have hfirst : walk.window.firstLine ≤ Window.maxLine := Nat.le_trans hreach hlines
    have hfits : walk.window.firstLine + walk.contents.length ≤ Window.maxLine + 1 := by
      have hwindow : walk.window = window.normalized := rfl
      rw [hwindow, hnumbers]
      omega
    rw [Page.foldlM_push?_start overflow hfirst, Page.start_eq, Page.foldl_push_ofRows]
    exact Page.inWords_ofRows hfits

end Listing
