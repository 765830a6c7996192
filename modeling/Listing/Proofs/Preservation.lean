import Mathlib.Data.List.Forall2
import Listing.Highlight
import Listing.Proofs.Lexemes
import Listing.Proofs.Page
import Listing.Proofs.Shown

/-!
# What is left of a source in its excerpt

A line of an excerpt, read back, is the line of the source less its empty strings. A string loses
its quotes to an attribute, and a page writes nothing for a span without text; so where both meet,
in a string with nothing between its quotes, the quotes are lost too. Every other token is read back
as it stands in the source (`Token.shown`).

The argument follows the stages: each piece of a walk is labelled so that it is read back as
`Token.shown` (`Span.forall₂_rows_ofToken`); a page glues the rows of its spans
(`Page.foldl_push_ofRows`) and gluing keeps `Text.Denotes`; a walk shows the window's part of the
tokens however they are read (`Walk.flatMap_pieces_start`). What is lost on one line is found by
looking at the source through a window of that line alone (`Text.visible_line`), which distributes
over the tokens.
-/

namespace Listing

/-! ## Empty strings -/

/-- The strings with nothing between their quotes. -/
def Text.emptyStrings : List (List Char) :=
  ["''".toList, "\"\"".toList, "b''".toList, "b\"\"".toList, "B''".toList, "B\"\"".toList]

/-- A string with nothing between its quotes. -/
def Token.IsEmptyString (token : Token) : Prop :=
  token.kind = .quoted .whole ∧ token.text.toList ∈ Text.emptyStrings

instance (token : Token) : Decidable token.IsEmptyString :=
  inferInstanceAs (Decidable (_ ∧ _))

/-- What an excerpt says of a token. -/
def Token.shown (token : Token) : List Char :=
  if token.IsEmptyString then [] else token.text.toList

theorem Text.mem_emptyStrings_iff {mark body : List Char} {quote : Char}
    (hmark : mark = [] ∨ mark = ['b'] ∨ mark = ['B'])
    (hquote : quote = Lexer.Quoted.single ∨ quote = Lexer.Quoted.double) :
    mark ++ quote :: (body ++ [quote]) ∈ emptyStrings ↔ body = [] := by
  constructor
  · intro hmem
    -- an empty string is as long as its first character says
    have hlen : ∀ cs ∈ emptyStrings,
        cs.length = if cs.head? = some 'b' ∨ cs.head? = some 'B' then 3 else 2 := by
      simp [emptyStrings]
    have h := hlen _ hmem
    rcases hmark with rfl | rfl | rfl
    · have hnot : quote ≠ 'b' ∧ quote ≠ 'B' := by
        rcases hquote with rfl | rfl <;> decide
      simpa [hnot] using h
    · simpa using h
    · simpa using h
  · rintro rfl
    rcases hmark with rfl | rfl | rfl <;> rcases hquote with rfl | rfl <;> decide

theorem Token.not_isEmptyString_of_splittable {token : Token}
    (h : token.kind.isSplittable = true) : ¬token.IsEmptyString := by
  rintro ⟨hkind, -⟩
  simp [hkind, Kind.isSplittable] at h

theorem Token.IsEmptyString.inline {token : Token} (h : token.IsEmptyString) :
    '\n' ∉ token.text.toList := by
  have hall : ∀ cs ∈ Text.emptyStrings, '\n' ∉ cs := by simp [Text.emptyStrings]
  exact hall _ h.2

theorem Token.IsEmptyString.text_ne_nil {token : Token} (h : token.IsEmptyString) :
    token.text.toList ≠ [] := by
  have hall : ∀ cs ∈ Text.emptyStrings, cs ≠ [] := by simp [Text.emptyStrings]
  exact hall _ h.2

theorem Token.reading_shown : Token.Reading Token.shown := by
  refine ⟨?_, ?_⟩
  · intro token h
    rw [shown, if_neg (not_isEmptyString_of_splittable h)]
  · intro token h
    unfold shown
    split
    · exact List.not_mem_nil
    · exact h

theorem Token.newlines_shown (token : Token) :
    newlines token.shown = newlines token.text.toList := by
  unfold shown
  split
  · next h => rw [newlines_eq_zero.2 h.inline, newlines_nil]
  · rfl

theorem Token.newlines_flatMap_shown (tokens : List Token) :
    newlines (tokens.flatMap Token.shown) = newlines (Token.spell tokens) := by
  induction tokens with
  | nil => rfl
  | cons token tokens ih => simp [newlines_shown, ih]

/-! ## The span of a token -/

namespace Span

open Text

theorem splitMark_of_isString {mark : List Char} {quote : Char}
    (hmark : mark = [] ∨ mark = ['b'] ∨ mark = ['B'])
    (hquote : quote = Lexer.Quoted.single ∨ quote = Lexer.Quoted.double) (rest : List Char) :
    splitMark (mark ++ quote :: rest) = (mark, quote :: rest) := by
  have hisQuote : isQuote quote = true := by
    rcases hquote with rfl | rfl <;> decide
  have hnot : ¬(quote = 'b' ∨ quote = 'B') := by
    rcases hquote with rfl | rfl <;> decide
  rcases hmark with rfl | rfl | rfl
  · cases rest <;> simp [splitMark, hnot]
  · simp [splitMark, hisQuote]
  · simp [splitMark, hisQuote]

theorem dropLast_concat (quote : Char) (body : List Char) :
    dropLast quote (body ++ [quote]) = body := by
  simp [dropLast]

/-- The rows of a span are read back as the lines of its text, each that is not empty between the
span's quotes. -/
theorem forall₂_rows {span : Span} (h : PlainKeys span.attributes) :
    List.Forall₂ Denotes span.rows
      ((lines span.text.toList).map fun text => if text = [] then [] else span.restore text) := by
  rw [rows, List.forall₂_map_left_iff, List.forall₂_map_right_iff, List.forall₂_same]
  intro text _
  by_cases ht : text = []
  · rw [if_pos ht, ht]
    exact .nil
  · rw [if_neg ht, part, if_neg (by simpa using ht)]
    exact denotes_wrap h text

theorem restore_of_bare {span : Span} (h : span.attributes = []) (text : List Char) :
    span.restore text = text := by
  unfold restore
  cases span.label <;> simp [value, h]

theorem forall₂_rows_of_bare {span : Span} (h : span.attributes = []) :
    List.Forall₂ Denotes span.rows (lines span.text.toList) := by
  have hkeys : PlainKeys span.attributes := by simp [h, PlainKeys]
  have hid : ∀ text : List Char, (if text = [] then [] else span.restore text) = text := by
    intro text
    rw [restore_of_bare h]
    split
    · next ht => exact ht.symm
    · rfl
  have hrows := forall₂_rows hkeys
  rwa [List.map_congr_left fun text _ => hid text, List.map_id'] at hrows

theorem forall₂_rows_ofString {token : Token} (hkind : token.kind = .quoted .whole)
    (htext : IsString token.text.toList) (hinline : '\n' ∉ token.text.toList) (label : String) :
    List.Forall₂ Denotes (ofString label token.text).rows (lines token.shown) := by
  obtain ⟨mark, body, quote, hmark, hquote, heq⟩ := htext
  have hbody : '\n' ∉ body := by
    intro hmem
    exact hinline (by simp [heq, hmem])
  have hspan : ofString label token.text
      = { label := some label
          attributes := ("data-quote", String.singleton quote)
            :: (if mark.isEmpty then [] else [("data-prefix", String.ofList mark)])
          text := String.ofList body } := by
    unfold ofString
    simp only [heq, splitMark_of_isString hmark hquote, dropLast_concat]
  have hempty : token.IsEmptyString ↔ body = [] := by
    rw [Token.IsEmptyString, heq, mem_emptyStrings_iff hmark hquote]
    simp [hkind]
  have hkeys : PlainKeys (ofString label token.text).attributes := by
    rw [hspan]
    rcases hmark with rfl | rfl | rfl <;> simp [PlainKeys]
  have hrows := forall₂_rows hkeys
  have hlines : lines (ofString label token.text).text.toList = [body] := by
    rw [hspan, String.toList_ofList, lines_of_newline_notMem hbody]
  rw [hlines] at hrows
  rw [lines_of_newline_notMem (Token.reading_shown.inline token hinline)]
  have hpart : (if body = [] then [] else (ofString label token.text).restore body)
      = token.shown := by
    rw [Token.shown]
    by_cases hb : body = []
    · rw [if_pos hb, if_pos (hempty.2 hb)]
    · rw [if_neg hb, if_neg (mt hempty.1 hb), hspan, heq]
      rcases hmark with rfl | rfl | rfl <;> simp [restore, value, List.lookup_cons]
  rwa [List.map_singleton, hpart] at hrows

/-- **A token's span is read back** as the token is shown. -/
theorem forall₂_rows_ofToken {token : Token} (hstring : token.kind = .quoted .whole →
      IsString token.text.toList ∧ '\n' ∉ token.text.toList) (history : History)
    (ahead : List Token) :
    List.Forall₂ Denotes (ofToken token history ahead).rows (lines token.shown) := by
  by_cases hkind : token.kind = .quoted .whole
  · have hspan : ofToken token history ahead = ofString token.kind.label token.text := by
      simp [ofToken, hkind]
    rw [hspan]
    exact forall₂_rows_ofString hkind (hstring hkind).1 (hstring hkind).2 _
  · have hshown : token.shown = token.text.toList := if_neg fun h => hkind h.1
    have hbare : (ofToken token history ahead).attributes = []
        ∧ (ofToken token history ahead).text = token.text := by
      unfold ofToken ofName
      split
      · exact ⟨rfl, rfl⟩
      · next h => exact absurd h hkind
      · split <;> exact ⟨rfl, rfl⟩
      · split <;> exact ⟨rfl, rfl⟩
      · exact ⟨rfl, rfl⟩
    rw [hshown, ← hbare.2]
    exact forall₂_rows_of_bare hbare.1

end Span

/-! ## The contents of an excerpt -/

open Text

/-- What a walk writes on a page. -/
def Walk.contents (walk : Walk) : List (List Char) :=
  (walk.views.1.map Walk.View.span).foldl (fun rows span => glue rows span.rows) []

theorem lines_renderTokens (tokens : List Token) (window : Window) :
    (renderTokens tokens window).lines
      = Page.numbered window.normalized.firstLine window.normalized.focus
          (Walk.start tokens window).contents := by
  rw [renderTokens, Page.start_eq, Page.foldl_push_ofRows, Page.finish, Page.lines_ofRows]
  rfl

/-- A line of an excerpt is a row that a walk with pieces has written. -/
theorem exists_row_of_mem_renderTokens {tokens : List Token} {window : Window} {line : Line}
    (h : line ∈ (renderTokens tokens window).lines) :
    (Walk.start tokens window).pieces ≠ []
      ∧ ∃ i row, (Walk.start tokens window).contents[i]? = some row
        ∧ line.number = window.normalized.firstLine + i ∧ line.content = String.ofList row := by
  rw [lines_renderTokens] at h
  obtain ⟨i, row, hi, hnumber, hcontent⟩ := Page.mem_numbered h
  refine ⟨?_, i, row, hi, hnumber, hcontent⟩
  intro hnil
  have hviews : (Walk.start tokens window).views.1 = [] := List.map_eq_nil_iff.1 hnil
  rw [Walk.contents, hviews] at hi
  cases hi

/-- Pieces are written so that they are read back as their text, if there are any. -/
theorem forall₂_rows_of_views {views : List Walk.View}
    (h : ∀ view ∈ views, List.Forall₂ Denotes view.span.rows (lines view.piece.shown))
    (hne : views ≠ []) :
    List.Forall₂ Denotes
      ((views.map Walk.View.span).foldl (fun rows span => glue rows span.rows) [])
      (lines ((views.map Walk.View.piece).flatMap Token.shown)) := by
  rw [List.foldl_map, List.flatMap_map]
  exact forall₂_foldl_glue_nil Denotes.append h hne

section Tokens

variable {tokens : List Token} (hplaced : Token.Placed 1 tokens)
  (hformed : ∀ token ∈ tokens, Lexeme.Formed ⟨token.kind, token.text.toList⟩)

include hformed in
theorem Token.Splittable.of_formed : Token.Splittable tokens :=
  fun token hmem => (hformed token hmem).splittable

include hformed in
theorem forall₂_rows_of_mem_views {window : Window} {view : Walk.View}
    (h : view ∈ (Walk.start tokens window).views.1) :
    List.Forall₂ Denotes view.span.rows (lines view.piece.shown) := by
  refine Span.forall₂_rows_ofToken ?_ view.history view.ahead
  intro hkind
  have hnot : view.piece.kind.isSplittable ≠ true := by simp [hkind, Kind.isSplittable]
  have hmem : view.piece ∈ tokens := by
    rcases (Walk.yields_views (Walk.start tokens window)).mem_pending_or_splittable view h with
      hmem | hsplit
    · exact hmem
    · exact absurd hsplit hnot
  have hview := hformed view.piece hmem
  exact ⟨hview.string hkind, fun hnl => hnot (hview.splittable hnl)⟩

include hplaced hformed in
/-- A walk that shows anything writes what is read back as the lines of its window. -/
theorem forall₂_contents {window : Window} (hne : (Walk.start tokens window).pieces ≠ []) :
    window.normalized.isInverted = false
      ∧ List.Forall₂ Denotes (Walk.start tokens window).contents
        (window.normalized.select 1 (lines (tokens.flatMap Token.shown))) := by
  have hsplit := Token.Splittable.of_formed hformed
  obtain ⟨hinv, hreach⟩ := Walk.reaches_of_pieces_start hplaced hsplit hne
  rw [← Token.newlines_flatMap_shown] at hreach
  have hrows : List.Forall₂ Denotes (Walk.start tokens window).contents
      (lines ((Walk.start tokens window).pieces.flatMap Token.shown)) :=
    forall₂_rows_of_views (fun view => forall₂_rows_of_mem_views hformed)
      fun hnil => hne (by rw [Walk.pieces, hnil, List.map_nil])
  rw [Walk.flatMap_pieces_start hplaced hsplit hinv Token.reading_shown,
    lines_visible (Window.shows_firstLine_normalized hinv) window.one_le_firstLine_normalized
      hreach] at hrows
  exact ⟨hinv, hrows⟩

include hplaced hformed in
/-- **A line of an excerpt is read back** as the line of its number in what is shown of all
tokens. -/
theorem decodeMarkup_of_mem_renderTokens {window : Window} {line : Line}
    (h : line ∈ (renderTokens tokens window).lines) :
    1 ≤ line.number
      ∧ (lines (tokens.flatMap Token.shown))[line.number - 1]?
        = some (decodeMarkup line.content.toList) := by
  obtain ⟨hne, i, row, hi, hnumber, hcontent⟩ := exists_row_of_mem_renderTokens h
  have hpos := window.one_le_firstLine_normalized
  obtain ⟨hinv, hrows⟩ := forall₂_contents hplaced hformed hne
  obtain ⟨text, htext, hdenotes⟩ := getElem?_of_forall₂ hrows hi
  rw [hcontent, String.toList_ofList, hdenotes.decode_eq, hnumber]
  exact ⟨by omega, Window.getElem?_select (Window.shows_firstLine_normalized hinv) hpos htext⟩

end Tokens

/-! ## What is lost on a line -/

/-- What a window shows of placed tokens is what it shows of each where it stands. -/
theorem visible_flatMap_of_placed {window : Window} {line : Nat} {tokens : List Token}
    (h : Token.Placed line tokens) {read : Token → List Char}
    (hread : ∀ token, newlines (read token) = newlines token.text.toList) :
    visible window line (tokens.flatMap read)
      = tokens.flatMap fun token => visible window token.line (read token) := by
  induction tokens generalizing line with
  | nil => rfl
  | cons token tokens ih =>
    rw [List.flatMap_cons, List.flatMap_cons, visible_append, hread, ih h.2, h.1]

section Missing

variable {tokens : List Token} {left whole : Token → List Char}
  (h : ∀ token ∈ tokens, left token = whole token ∨ left token = [])

include h in
theorem length_flatMap_le : (tokens.flatMap left).length ≤ (tokens.flatMap whole).length := by
  induction tokens with
  | nil => exact Nat.le_refl _
  | cons token tokens ih =>
    have htail := ih fun next hnext => h next (List.mem_cons_of_mem _ hnext)
    rw [List.flatMap_cons, List.flatMap_cons, List.length_append, List.length_append]
    rcases h token List.mem_cons_self with heq | hnil
    · rw [heq]
      omega
    · rw [hnil, List.length_nil]
      omega

include h in
/-- Where of each token all is left or nothing, all is left of all only if it is of each. -/
theorem eq_of_flatMap_eq (heq : tokens.flatMap left = tokens.flatMap whole) :
    ∀ token ∈ tokens, left token = whole token := by
  induction tokens with
  | nil => simp
  | cons token tokens ih =>
    have htail := fun next (hnext : next ∈ tokens) => h next (List.mem_cons_of_mem _ hnext)
    have hle := length_flatMap_le htail
    rw [List.flatMap_cons, List.flatMap_cons] at heq
    have hhead : left token = whole token := by
      rcases h token List.mem_cons_self with hsame | hnil
      · exact hsame
      · -- nothing that comes after makes up for what is missing here
        have hlen := congrArg List.length heq
        rw [List.length_append, List.length_append, hnil, List.length_nil] at hlen
        have hzero : (whole token).length = 0 := by omega
        rw [hnil, List.length_eq_zero_iff.1 hzero]
    rw [hhead] at heq
    intro next hmem
    rcases List.mem_cons.1 hmem with rfl | hmem
    · exact hhead
    · exact ih htail (List.append_cancel_left heq) next hmem

end Missing

/-- A line loses something only to an empty string on it. -/
theorem shown_line_eq_iff {tokens : List Token} (hplaced : Token.Placed 1 tokens) {line : Nat}
    (hpos : 1 ≤ line) {row text : List Char}
    (hrow : (lines (tokens.flatMap Token.shown))[line - 1]? = some row)
    (htext : (lines (Token.spell tokens))[line - 1]? = some text) :
    row = text ↔ ∀ token ∈ tokens, token.line = line → ¬token.IsEmptyString := by
  have hleft : row
      = tokens.flatMap fun token => visible (.lines line line) token.line token.shown := by
    rw [← visible_line hpos hrow, visible_flatMap_of_placed hplaced Token.newlines_shown]
  have hwhole : text
      = tokens.flatMap fun token => visible (.lines line line) token.line token.text.toList := by
    rw [← visible_line hpos htext, Token.spell, visible_flatMap_of_placed hplaced fun _ => rfl]
  rw [hleft, hwhole]
  constructor
  · intro heq token hmem hline hempty
    have hsame := eq_of_flatMap_eq (fun next _ => ?_) heq token hmem
    · rw [Token.shown, if_pos hempty, visible_nil, visible_of_newline_notMem _ _ hempty.inline,
        if_pos (Window.shows_lines_self.2 hline)] at hsame
      exact hempty.text_ne_nil hsame.symm
    · unfold Token.shown
      split
      · exact .inr rfl
      · exact .inl rfl
  · intro hnone
    refine List.flatMap_congr fun token hmem => ?_
    unfold Token.shown
    split
    · next hempty =>
      have hnot : ¬(Window.lines line line).shows token.line = true :=
        fun hs => hnone token hmem (Window.shows_lines_self.1 hs) hempty
      rw [visible_nil, visible_of_newline_notMem _ _ hempty.inline, if_neg hnot]
    · rfl

/-! ## From the source to the excerpt -/

theorem normalizeNewlines_of_notMem {source : String} (h : '\r' ∉ source.toList) :
    normalizeNewlines source = source := by
  have hpairs : ∀ cs : List Char, '\r' ∉ cs → LineEnding.hasCrlf cs = false := by
    intro cs hcs
    induction cs with
    | nil => rfl
    | cons c cs ih =>
      rw [List.mem_cons, not_or] at hcs
      simp [LineEnding.hasCrlf, Ne.symm hcs.1, ih hcs.2]
  have hdetect : LineEnding.detect source.toList = .lf := by
    rw [LineEnding.detect, hpairs _ h]
    simp [h]
  rw [normalizeNewlines, LineEnding.normalize, hdetect, String.ofList_toList]

theorem tokensOf_of_tokenize {source : String} (hlf : '\r' ∉ source.toList) {tokens : List Token}
    (h : tokenize source = .ok tokens) : tokensOf source = .ok tokens := by
  rw [tokensOf, normalizeNewlines_of_notMem hlf, h]

theorem render_of_tokenize {source : String} (hlf : '\r' ∉ source.toList) {tokens : List Token}
    (h : tokenize source = .ok tokens) (window : Window) :
    render source window = .ok (renderTokens tokens window.normalized) := by
  rw [render, tokensOf_of_tokenize hlf h]
  rfl

/-- **A line of an excerpt gives back its line of the source exactly if no empty string stands on
it.** Otherwise it gives back the line without its empty strings. -/
theorem render_gives_back_line_iff {source : String} (hlf : '\r' ∉ source.toList)
    {tokens : List Token} (h : tokenize source = .ok tokens) (window : Window) :
    ∃ excerpt, render source window = .ok excerpt
      ∧ ∀ line ∈ excerpt.lines, ∃ text, 1 ≤ line.number
        ∧ (lines source.toList)[line.number - 1]? = some text
        ∧ (lines (tokens.flatMap Token.shown))[line.number - 1]?
          = some (decodeMarkup line.content.toList)
        ∧ (decodeMarkup line.content.toList = text
          ↔ ∀ token ∈ tokens, token.line = line.number → ¬token.IsEmptyString) := by
  refine ⟨_, render_of_tokenize hlf h window, ?_⟩
  intro line hmem
  have hplaced := placed_tokenize h
  obtain ⟨hpos, hrow⟩ := decodeMarkup_of_mem_renderTokens hplaced
    (fun token => formed_of_mem_tokenize h) hmem
  -- the empty strings hold no newlines, so that the source has the same lines
  have hlen : line.number - 1 < (lines (Token.spell tokens)).length := by
    have hlt := (List.getElem?_eq_some_iff.1 hrow).1
    rwa [length_lines, Token.newlines_flatMap_shown, ← length_lines] at hlt
  have htext := List.getElem?_eq_getElem hlen
  refine ⟨_, hpos, ?_, hrow, shown_line_eq_iff hplaced hpos hrow htext⟩
  rw [← spell_tokenize h]
  exact htext

/-- Two lines of which the second holds an empty string, and the first one that is not. -/
theorem render_gives_back_line_iff_two_strings :
    ∃ tokens excerpt, tokenize "<?php b'&';\n'';" = .ok tokens
      ∧ render "<?php b'&';\n'';" .full = .ok excerpt
      ∧ excerpt.lines.map Line.number = [1, 2]
      ∧ ∀ line ∈ excerpt.lines, ∃ text, 1 ≤ line.number
        ∧ (lines "<?php b'&';\n'';".toList)[line.number - 1]? = some text
        ∧ (lines (tokens.flatMap Token.shown))[line.number - 1]?
          = some (decodeMarkup line.content.toList)
        ∧ (decodeMarkup line.content.toList = text
          ↔ ∀ token ∈ tokens, token.line = line.number → ¬token.IsEmptyString) := by
  have h : (tokenize "<?php b'&';\n'';").toOption = some
      [⟨.tag .open_, "<?php ", 1⟩, ⟨.quoted .whole, "b'&'", 1⟩, ⟨.punct, ";", 1⟩,
        ⟨.whitespace, "\n", 1⟩, ⟨.quoted .whole, "''", 2⟩, ⟨.punct, ";", 2⟩] := by
    decide +kernel
  have h := Lexer.tokenize_of_toOption h
  obtain ⟨excerpt, hexcerpt, hlines⟩ := render_gives_back_line_iff (by decide) h .full
  have hnumbers : (render "<?php b'&';\n'';" .full).toOption.map
      (fun excerpt => excerpt.lines.map Line.number) = some [1, 2] := by decide +kernel
  rw [hexcerpt] at hnumbers
  exact ⟨_, excerpt, h, hexcerpt, Option.some.inj hnumbers, hlines⟩

/-- An empty string is lost: the line `<?php '';` is given back as `<?php ;`. -/
theorem render_loses_empty_string :
    ∃ tokens excerpt, tokenize "<?php '';" = .ok tokens ∧ render "<?php '';" .full = .ok excerpt
      ∧ ∃ line ∈ excerpt.lines,
        (lines "<?php '';".toList)[line.number - 1]? = some "<?php '';".toList
          ∧ decodeMarkup line.content.toList = "<?php ;".toList := by
  have h : (tokenize "<?php '';").toOption = some
      [⟨.tag .open_, "<?php ", 1⟩, ⟨.quoted .whole, "''", 1⟩, ⟨.punct, ";", 1⟩] := by
    decide +kernel
  have h := Lexer.tokenize_of_toOption h
  have hexcerpt : (render "<?php '';" .full).toOption
      = some
        { leading := .spacer
          lines :=
            [⟨1, false, "<span class=\"tag open-tag\">&lt;?php </span><span class=\"g\">;</span>"⟩]
          trailing := .spacer } := by decide +kernel
  rw [render_of_tokenize (by decide) h] at hexcerpt ⊢
  have hlines := congrArg Excerpt.lines (Option.some.inj hexcerpt)
  refine ⟨_, _, h, rfl, _, by rw [hlines]; exact List.mem_singleton_self _, by decide, ?_⟩
  decide +kernel

end Listing
