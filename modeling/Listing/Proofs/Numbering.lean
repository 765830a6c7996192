import Listing.Proofs.Preservation

/-!
# The numbers of the lines of an excerpt

Lines are counted twice, by the tokens of a source and by the page that is filled. The two counts
agree at every piece: the page has as many lines as the pieces before it have newlines, and one more
(`length_rows_of_views`), and the pieces of a walk are placed by the same newlines
(`Walk.placed_pieces_start`).

A page opens a line only for a piece. A walk has a piece on the first line of its window if, and
only if, a character of the source stands there or further down, a newline standing on the line it
ends (`Walk.Yields.eq_nil_iff`). So the one line that can be missing is the last of a source that
ends with a newline: it is shown if the window begins above it, but not if it begins with it.
-/

namespace Listing

open Text

/-! ## The current line of a page -/

namespace Page

theorem map_number_numbered (firstLine : Nat) (focus : Option Nat) (rows : List (List Char)) :
    (numbered firstLine focus rows).map Line.number = List.range' firstLine rows.length := by
  apply List.ext_getElem
  · simp [numbered]
  · intro i hi hi'
    simp [numbered]

theorem getLast?_numbered (firstLine : Nat) (focus : Option Nat) {rows : List (List Char)}
    (h : rows ≠ []) : ∃ line, (numbered firstLine focus rows).getLast? = some line
      ∧ line.number + 1 = firstLine + rows.length := by
  rcases List.eq_nil_or_concat rows with rfl | ⟨above, row, rfl⟩
  · exact absurd rfl h
  · rw [List.concat_eq_append, numbered, List.mapIdx_concat, List.getLast?_concat]
    exact ⟨_, rfl, by simp [Nat.add_assoc]⟩

end Page

namespace Walk

/-- The page when some pieces of a walk have been written. -/
def pageAfter (walk : Walk) (views : List View) : Page :=
  (views.map View.span).foldl Page.push (.start walk.window)

theorem lines_pageAfter (walk : Walk) (views : List View) :
    (walk.pageAfter views).lines
      = Page.numbered walk.window.firstLine walk.window.focus
          ((views.map View.span).foldl (fun rows span => glue rows span.rows) []) := by
  rw [pageAfter, Page.start_eq, Page.foldl_push_ofRows, Page.lines_ofRows]

end Walk

/-- Pieces fill one line more than they have newlines. -/
theorem length_rows_of_views {views : List Walk.View}
    (h : ∀ view ∈ views, List.Forall₂ Denotes view.span.rows (lines view.piece.shown))
    (hne : views ≠ []) :
    ((views.map Walk.View.span).foldl (fun rows span => glue rows span.rows) []).length
      = newlines (Token.spell (views.map Walk.View.piece)) + 1 := by
  rw [(forall₂_rows_of_views h hne).length_eq, length_lines, Token.newlines_flatMap_shown]

/-- **Each piece is written on its own line**: a page that has been filled with the pieces before it
has come to the line on which the piece stands. -/
theorem piece_on_current_line {source : String} {tokens : List Token}
    (h : tokenize source = .ok tokens) (window : Window) :
    let walk := Walk.start tokens window
    renderTokens tokens window = (walk.pageAfter walk.views.1).finish walk.views.2.truncated
      ∧ ∀ before view after, walk.views.1 = before ++ view :: after →
        (before = [] →
          (walk.pageAfter before).lines = []
            ∧ view.piece.line = window.normalized.firstLine)
        ∧ (before ≠ [] → ∃ line, (walk.pageAfter before).lines.getLast? = some line
            ∧ view.piece.line = line.number) := by
  intro walk
  refine ⟨rfl, ?_⟩
  intro before view after hviews
  have hformed := fun token (hmem : token ∈ tokens) => formed_of_mem_tokenize h hmem
  -- there is a piece, so that the window is not inverted
  have hpiece : view.piece ∈ walk.pieces := by
    rw [Walk.pieces, hviews]
    exact List.mem_map_of_mem (List.mem_append_right _ List.mem_cons_self)
  have hline : view.piece.line
      = window.normalized.firstLine + newlines (Token.spell (before.map Walk.View.piece)) := by
    have hplaced := Walk.placed_pieces_start (placed_tokenize h)
      (.of_formed hformed)
      (Walk.isInverted_of_mem_pieces_start hpiece)
    rw [Walk.pieces, hviews, List.map_append, List.map_cons] at hplaced
    exact hplaced.line_eq
  constructor
  · rintro rfl
    exact ⟨rfl, hline⟩
  · intro hne
    have hlength := length_rows_of_views
      (fun found (hfound : found ∈ before) =>
        forall₂_rows_of_mem_views hformed (hviews ▸ List.mem_append_left _ hfound)) hne
    obtain ⟨line, hlast, hnumber⟩ :=
      Page.getLast?_numbered walk.window.firstLine walk.window.focus
        (List.length_pos_iff.1 (by rw [hlength]; exact Nat.succ_pos _))
    refine ⟨line, by rw [Walk.lines_pageAfter, hlast], ?_⟩
    have hfirst : walk.window.firstLine = window.normalized.firstLine := rfl
    omega

/-- A comment that begins above the window, the newline that ends its line, and what follows. -/
theorem piece_on_current_line_comment :
    ∃ tokens, tokenize "<?php /*\nb*/\n;" = .ok tokens
      ∧ (Walk.start tokens (.lines 2 3)).pieces
        = [⟨.comment, "b*/", 2⟩, ⟨.whitespace, "\n", 2⟩, ⟨.punct, ";", 3⟩]
      ∧ ∀ before view after, (Walk.start tokens (.lines 2 3)).views.1 = before ++ view :: after →
        before ≠ [] →
        ∃ line, ((Walk.start tokens (.lines 2 3)).pageAfter before).lines.getLast? = some line
          ∧ view.piece.line = line.number := by
  have h : (tokenize "<?php /*\nb*/\n;").toOption = some
      [⟨.tag .open_, "<?php ", 1⟩, ⟨.comment, "/*\nb*/", 1⟩, ⟨.whitespace, "\n", 2⟩,
        ⟨.punct, ";", 3⟩] := by decide +kernel
  have h := Lexer.tokenize_of_toOption h
  refine ⟨_, h, by decide +kernel, ?_⟩
  intro before view after hviews
  exact ((piece_on_current_line h (.lines 2 3)).2 before view after hviews).2

/-! ## The lines that are shown -/

theorem newlines_dropLast {cs : List Char} (h : cs ≠ []) :
    newlines cs.dropLast + (if cs.getLast? = some '\n' then 1 else 0) = newlines cs := by
  rcases List.eq_nil_or_concat cs with rfl | ⟨front, c, rfl⟩
  · exact absurd rfl h
  · by_cases hc : c = '\n' <;> simp [hc, newlines]

/-- The last character of a text stands above a line that comes after the last, and above the last
if that is empty. -/
theorem newlines_dropLast_lt_iff {cs : List Char} (h : cs ≠ []) {line : Nat} :
    1 + newlines cs.dropLast < line
      ↔ newlines cs + 1 < line ∨ cs.getLast? = some '\n' ∧ line = newlines cs + 1 := by
  have hlines := newlines_dropLast h
  by_cases hend : cs.getLast? = some '\n'
  · rw [if_pos hend] at hlines
    simp only [hend, true_and]
    omega
  · rw [if_neg hend] at hlines
    simp only [hend, false_and, or_false]
    omega

namespace Walk

/-- Only the end of a piece can be a newline. -/
theorem newlines_dropLast_cut {window : Window} {token : Token} (ha : window.isActive = true)
    (hs : '\n' ∈ token.text.toList → token.kind.isSplittable = true) :
    newlines (cut window token).1.text.toList.dropLast = 0 := by
  by_cases hmem : '\n' ∈ token.text.toList
  · obtain ⟨row, below, ht, hr⟩ := List.eq_append_cons_of_mem hmem
    rw [cut_of_newline ha (hs hmem) ht hr]
    split
    · exact newlines_eq_zero.2 fun h => hr (List.dropLast_subset _ (by simpa using h))
    · simpa using newlines_eq_zero.2 hr
  · rw [cut_of_inline window hmem]
    exact newlines_eq_zero.2 fun h => hmem (List.dropLast_subset _ h)

/-- A walk shows nothing if all characters of the pending tokens stand above the window. -/
theorem Yields.eq_nil_iff {walk after : Walk} {views : List View} (h : Yields walk views after)
    {first : Nat} (hfirst : walk.window.first = some first) (hfin : walk.finished = false)
    {line : Nat} (hin : InStep walk.window line walk.pending)
    (hp : walk.window.isPast line = false) (hshown : walk.window.isPast first = false)
    (hne : ∀ token ∈ walk.pending, token.text ≠ "") :
    views = []
      ↔ walk.pending = [] ∨ line + newlines (Token.spell walk.pending).dropLast < first := by
  have ha : walk.window.isActive = true := by simp [Window.isActive, hfirst]
  induction h generalizing line with
  | finished hf =>
    rw [hf] at hfin
    cases hfin
  | empty _ hpending => simp [hpending]
  | stop _ hpending hpast =>
    rw [hin.front _ _ hpending, hp] at hpast
    cases hpast
  | @skip walk _ token rest _ _ hpending hpast hahead _ ih =>
    rw [hpending] at hin hne ⊢
    obtain ⟨next, hadv⟩ := hin.advances ha hpast
    have hlt : line < first := by simpa [Window.isAhead, hfirst, hadv.line_eq] using hahead
    have hnext : walk.window.isPast next = false := by
      have hle : next ≤ first := by
        have := hadv.next_le
        omega
      cases hcase : walk.window.isPast next with
      | false => rfl
      | true => rw [Window.isPast_mono hcase hle] at hshown; exact hshown
    have hback := @text_ne_empty_of_mem_back walk.window token rest hne
    have hviews := ih hfirst hfin hadv.inStep hnext hshown hback ha
    have hcount := (hadv.next_eq hnext).1
    have hsplit := (hin.placed hp).2 token List.mem_cons_self
    have hpiece := newlines_dropLast_cut ha hsplit
    refine hviews.trans ?_
    rw [pending_past, spell_cut walk.window token rest]
    by_cases hempty : (cut walk.window token).2 ++ rest = []
    · -- what is left ends on the line of the piece, above the window
      simp [hempty, hpiece, hlt]
    · have hspell := mt (Token.spell_eq_nil_iff hback).1 hempty
      rw [List.dropLast_append_of_ne_nil hspell, newlines_append]
      simp only [hempty, false_or, reduceCtorEq]
      omega
  | keep _ hpending hpast hahead _ ih =>
    rw [hpending] at hin ⊢
    obtain ⟨next, hadv⟩ := hin.advances ha hpast
    have hle : first ≤ line := by simpa [Window.isAhead, hfirst, hadv.line_eq] using hahead
    simp
    omega

/-- A walk from its start shows nothing if the source has no character on the first line of the
window or further down. -/
theorem pieces_start_eq_nil_iff {tokens : List Token} {window : Window}
    (hplaced : Token.Placed 1 tokens) (hsplit : Token.Splittable tokens)
    (hinv : window.normalized.isInverted = false) (htexts : ∀ token ∈ tokens, token.text ≠ "")
    (hne : tokens ≠ []) :
    (start tokens window).pieces = []
      ↔ 1 + newlines (Token.spell tokens).dropLast < window.normalized.firstLine := by
  have hpos := window.one_le_firstLine_normalized
  have hshown := Window.shows_firstLine_normalized hinv
  cases hf : window.normalized.first with
  | none =>
    rw [pieces_start_of_open hinv (by simp [Window.isActive, hf])]
    simp [hne, Window.firstLine, hf]
  | some first =>
    have hfirst : window.normalized.firstLine = first := by simp [Window.firstLine, hf]
    have hpast : window.normalized.isPast first = false := by
      rw [hfirst, Window.shows, Bool.and_eq_true] at hshown
      simpa using hshown.2
    have hone : window.normalized.isPast 1 = false := by
      cases hcase : window.normalized.isPast 1 with
      | false => rfl
      | true => rw [← hpast, Window.isPast_mono hcase (hfirst ▸ hpos)]
    have hviews := (yields_views (start tokens window)).eq_nil_iff hf hinv
      (.of_placed hplaced hsplit) hone hpast htexts
    rw [pieces, List.map_eq_nil_iff, hviews, hfirst]
    simp [start, hne]

end Walk

/-- The numbers of an excerpt: those of all lines from the first to the last of the window, if a
piece is shown at all. -/
theorem map_number_renderTokens {tokens : List Token} (hplaced : Token.Placed 1 tokens)
    (hformed : ∀ token ∈ tokens, Lexeme.Formed ⟨token.kind, token.text.toList⟩) {window : Window}
    (hne : (Walk.start tokens window).pieces ≠ []) :
    (renderTokens tokens window).lines.map Line.number
      = List.range' window.normalized.firstLine
          (window.last.elim (newlines (Token.spell tokens) + 1)
            (min · (newlines (Token.spell tokens) + 1)) + 1 - window.normalized.firstLine) := by
  obtain ⟨hinv, hrows⟩ := forall₂_contents hplaced hformed hne
  rw [lines_renderTokens, Page.map_number_numbered, hrows.length_eq,
    Window.length_select (Window.shows_firstLine_normalized hinv)
      window.one_le_firstLine_normalized, length_lines, Token.newlines_flatMap_shown,
    Window.last_normalized]

theorem lines_renderTokens_eq_nil {tokens : List Token} {window : Window}
    (h : (Walk.start tokens window).pieces = []) : (renderTokens tokens window).lines = [] := by
  have hviews : (Walk.start tokens window).views.1 = [] := List.map_eq_nil_iff.1 h
  rw [lines_renderTokens, Walk.contents, hviews]
  rfl

/-- A window has no line of the source if the source ends above it. -/
theorem Window.numbers_eq_nil_iff {window : Window} {first count : Nat}
    (hle : ∀ last, window.last = some last → first ≤ last) :
    List.range' first (window.last.elim count (min · count) + 1 - first) = [] ↔ count < first := by
  rw [List.range'_eq_nil_iff]
  cases hlast : window.last with
  | none => simp only [Option.elim_none]; omega
  | some last =>
    have := hle last hlast
    simp only [Option.elim_some]
    omega

/-- **The lines of an excerpt are all lines of the source in the window**, numbered one by one,
unless the source ends with a newline and the window begins with the empty line after it. Then none
is shown. -/
theorem render_numbers_iff {source : String} (hlf : '\r' ∉ source.toList) (hne : source ≠ "")
    {tokens : List Token} (h : tokenize source = .ok tokens) {window : Window}
    (hle : ∀ last, window.last = some last → window.normalized.firstLine ≤ last) :
    let first := window.normalized.firstLine
    let count := newlines source.toList + 1
    ∃ excerpt, render source window = .ok excerpt
      ∧ (excerpt.lines.map Line.number
          = List.range' first (window.last.elim count (min · count) + 1 - first)
        ↔ ¬(source.toList.getLast? = some '\n' ∧ first = count))
      ∧ (source.toList.getLast? = some '\n' → first = count → excerpt.lines = []) := by
  intro first count
  refine ⟨_, render_of_tokenize hlf h window, ?_⟩
  have hplaced := placed_tokenize h
  have hformed := fun token (hmem : token ∈ tokens) => formed_of_mem_tokenize h hmem
  have hspell := spell_tokenize h
  have htexts := fun token (hmem : token ∈ tokens) => text_ne_empty_of_mem_tokenize h hmem
  have hsource : source.toList ≠ [] := by rwa [ne_eq, String.toList_eq_nil_iff]
  have hsome : tokens ≠ [] := by rwa [ne_eq, ← Token.spell_eq_nil_iff htexts, hspell]
  -- no piece is shown of a source that ends above the window, or right where it begins
  have hpieces : (Walk.start tokens window.normalized).pieces = []
      ↔ count < first ∨ source.toList.getLast? = some '\n' ∧ first = count := by
    have hinv := Window.isInverted_normalized_eq_false.2 hle
    rw [Walk.pieces_start_eq_nil_iff hplaced (.of_formed hformed)
      (by rwa [Window.normalized_normalized]) htexts hsome, hspell, Window.normalized_normalized]
    exact newlines_dropLast_lt_iff hsource
  by_cases hnil : (Walk.start tokens window.normalized).pieces = []
  · rw [lines_renderTokens_eq_nil hnil]
    refine ⟨?_, fun _ _ => rfl⟩
    rw [List.map_nil, eq_comm, Window.numbers_eq_nil_iff hle]
    rcases hpieces.1 hnil with hlt | hbad
    · exact ⟨fun _ hbad => Nat.ne_of_gt hlt hbad.2, fun _ => hlt⟩
    · exact ⟨fun hlt => absurd hbad.2 (Nat.ne_of_gt hlt), fun hnot => absurd hbad hnot⟩
  · have hnumbers := map_number_renderTokens hplaced hformed hnil
    rw [hspell, Window.normalized_normalized, Window.last_normalized] at hnumbers
    rw [hpieces, not_or] at hnil
    exact ⟨⟨fun _ => hnil.2, fun _ => hnumbers⟩, fun hend hfirst => absurd ⟨hend, hfirst⟩ hnil.2⟩

/-- A window over the last two of three lines, both of them blank. -/
theorem render_numbers_iff_blank :
    ∃ excerpt, render "a\n\n" (.lines 2 7) = .ok excerpt
      ∧ excerpt.lines.map Line.number = [2, 3] := by
  have h : (tokenize "a\n\n").toOption = some [⟨.html, "a\n\n", 1⟩] := by decide +kernel
  obtain ⟨excerpt, hexcerpt, hnumbers, -⟩ := @render_numbers_iff "a\n\n" (by decide) (by decide) _
    (Lexer.tokenize_of_toOption h) (.lines 2 7) (by decide)
  exact ⟨excerpt, hexcerpt, hnumbers.2 (by decide)⟩

/-- The second line of a source with two lines is shown with the first, but not alone. -/
theorem render_misses_last_line :
    ∃ excerpt whole, render "a\n" (.lines 2 2) = .ok excerpt ∧ render "a\n" .full = .ok whole
      ∧ newlines "a\n".toList + 1 = 2
      ∧ excerpt.lines.map Line.number = [] ∧ whole.lines.map Line.number = [1, 2] := by
  have h : (tokenize "a\n").toOption = some [⟨.html, "a\n", 1⟩] := by decide +kernel
  have hrender := render_of_tokenize (by decide) (Lexer.tokenize_of_toOption h)
  exact ⟨_, _, hrender (.lines 2 2), hrender .full, by decide, by decide +kernel, by decide +kernel⟩

end Listing
