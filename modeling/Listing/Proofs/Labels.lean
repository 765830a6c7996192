import Listing.Proofs.Contents

/-!
# Labels in a window

The label of a token is that of its kind, but for names: their role is found from the tokens around
them, of which a walk remembers the last twenty. In a window that leaves lines out a token is
recorded once for each of its lines, as what is left of a cut token goes back to the list and is
taken from there again (`Walk.entries`). To a scan these records are all alike
(`Role.resolve_congr`), so the only difference to a walk through the whole source is that it forgets
sooner.

`Labelled.ofTokens` gives each token its role in this way. The invariant of a walk is that what it
still has to write is what the window shows of the markup of the pending tokens (`Walk.Marks` for one
step, `Walk.Yields.flatMap_markup_eq_visible` for all). So each line of an excerpt is the line of its
number in the markup of all tokens (`content_of_mem_renderTokens`).
-/

namespace Listing

open Text

/-! ## What a scan sees -/

/-- What a scan for a role sees of a token: its kind, and the text of punctuation. -/
def Token.mark (token : Token) : Token :=
  { token with text := if token.kind = .punct then token.text else "", line := 0 }

theorem Token.mark_of_splittable {token : Token} (h : token.kind.isSplittable = true) :
    token.mark = ⟨token.kind, "", 0⟩ := by
  have hkind : token.kind ≠ .punct := by
    intro hp
    simp [hp, Kind.isSplittable] at h
  simp [mark, hkind]

theorem Role.lookBehind_map_mark (hints : Hints) (ahead before : List Token) :
    lookBehind hints ahead (before.map Token.mark) = lookBehind hints ahead before := by
  have hpunct : ∀ (token : Token) (c : Char), token.mark.isPunct c = token.isPunct c := by
    intro token c
    by_cases hkind : token.kind = .punct <;> simp [Token.isPunct, Token.mark, hkind]
  induction before with
  | nil => rfl
  | cons token before ih =>
    have hkind : token.mark.kind = token.kind := rfl
    simp only [List.map_cons, lookBehind, hkind, hpunct, ih]

theorem Role.resolve_congr (text : String) {before before' : List Token} (ahead : List Token)
    (h : before.map Token.mark = before'.map Token.mark) :
    resolve text before ahead = resolve text before' ahead := by
  unfold resolve
  split
  · rfl
  · split
    · rfl
    · rw [← lookBehind_map_mark, h, lookBehind_map_mark]

/-! ## What a walk records -/

/-- The number of lines on which the token has characters, a newline being on the line it ends. -/
def Token.height (token : Token) : Nat :=
  newlines token.text.toList + (if token.text.toList.getLast? = some '\n' then 0 else 1)

theorem Token.height_of_inline {token : Token} (h : '\n' ∉ token.text.toList) :
    token.height = 1 := by
  have hlast : token.text.toList.getLast? ≠ some '\n' := fun hl => h (List.mem_of_getLast? hl)
  rw [height, newlines_eq_zero.2 h, if_neg hlast]

/-- A token cut after its first newline is one line higher than what is left of it. -/
theorem Token.height_of_newline {token : Token} {row below : List Char}
    (ht : token.text.toList = row ++ '\n' :: below) (hr : '\n' ∉ row) (hb : below ≠ [])
    (line : Nat) :
    token.height = Token.height ⟨token.kind, String.ofList below, line⟩ + 1 := by
  have hlast : token.text.toList.getLast? = below.getLast? := by
    rw [ht, List.getLast?_append, List.getLast?_cons]
    simp [List.getLast?_eq_some_getLast hb]
  rw [height, height, hlast, String.toList_ofList, ht, newlines_append, newlines_cons_newline,
    newlines_eq_zero.2 hr]
  omega

namespace Walk

/-- How a walk records a token: once for each of its lines, if the window leaves lines out. -/
def entries (window : Window) (token : Token) : List Token :=
  List.replicate (if window.isActive then token.height else 1) token

/-- The role that a walk through the window finds for a name, from the tokens before and after. -/
def role (window : Window) (before : List Token) (name : Token) (after : List Token) :
    Option Role :=
  Role.resolve name.text
    ((before.reverse.flatMap (entries window)).take (History.capacity - 1)) (after.take 2)

end Walk

/-! ## Tokens with their roles -/

/-- A token with a role. -/
structure Labelled where
  token : Token
  role : Option Role

namespace Labelled

def span (labelled : Labelled) : Span :=
  .ofRole labelled.token labelled.role

def markup (labelled : Labelled) : List Char :=
  labelled.span.markup

/-- The tokens with their roles; `seen` are the entries recorded before them, newest first. -/
def ofTokens (window : Window) (seen : List Token) : List Token → List Labelled
  | [] => []
  | token :: rest =>
    ⟨token, Role.resolve token.text (seen.take (History.capacity - 1)) (rest.take 2)⟩
      :: ofTokens window (Walk.entries window token ++ seen) rest

theorem ofTokens_congr (window : Window) {seen seen' : List Token}
    (h : seen.map Token.mark = seen'.map Token.mark) (tokens : List Token) :
    ofTokens window seen tokens = ofTokens window seen' tokens := by
  induction tokens generalizing seen seen' with
  | nil => rfl
  | cons token rest ih =>
    have htake : (seen.take (History.capacity - 1)).map Token.mark
        = (seen'.take (History.capacity - 1)).map Token.mark := by
      rw [List.map_take, h, List.map_take]
    have hnext : (Walk.entries window token ++ seen).map Token.mark
        = (Walk.entries window token ++ seen').map Token.mark := by
      rw [List.map_append, h, List.map_append]
    rw [ofTokens, ofTokens, Role.resolve_congr token.text _ htake, ih hnext]

/-- The markup of a text of a kind that may be split. -/
def plain (kind : Kind) (text : List Char) : List Char :=
  ofLines ((lines text).map (Span.ofToken ⟨kind, "", 0⟩ .empty []).part)

theorem markup_of_splittable {token : Token} (h : token.kind.isSplittable = true)
    (role : Option Role) : markup ⟨token, role⟩ = plain token.kind token.text.toList := by
  obtain ⟨kind, text, line⟩ := token
  dsimp only at h
  unfold Kind.isSplittable at h
  split at h
  · rfl
  · rfl
  · rfl
  · rfl
  · rfl
  · rfl
  · rfl
  · rfl
  · cases h

theorem markup_ofList {kind : Kind} (h : kind.isSplittable = true) (text : List Char) (line : Nat)
    (role : Option Role) : markup ⟨⟨kind, String.ofList text, line⟩, role⟩ = plain kind text := by
  rw [@markup_of_splittable ⟨kind, String.ofList text, line⟩ h, String.toList_ofList]

theorem plain_of_inline (kind : Kind) {row : List Char} (h : '\n' ∉ row) :
    plain kind row = (Span.ofToken ⟨kind, "", 0⟩ .empty []).part row := by
  rw [plain, lines_of_newline_notMem h]
  rfl

theorem newline_notMem_plain (kind : Kind) {row : List Char} (h : '\n' ∉ row) :
    '\n' ∉ plain kind row := by
  rw [plain_of_inline kind h, Span.ofToken_eq_ofRole]
  exact (Span.inline_ofRole (fun _ => List.not_mem_nil) _).1.newline_notMem_part h

theorem plain_append_newline (kind : Kind) {row : List Char} (h : '\n' ∉ row)
    (below : List Char) :
    plain kind (row ++ '\n' :: below) = plain kind row ++ '\n' :: plain kind below := by
  rw [plain_of_inline kind h, plain, lines_append_newline h, List.map_cons, ofLines_cons, plain]
  rw [ne_eq, List.map_eq_nil_iff]
  exact lines_ne_nil below

theorem newlines_markup {token : Token}
    (h : token.kind = .quoted .whole → '\n' ∉ token.text.toList) (role : Option Role) :
    newlines (markup ⟨token, role⟩) = newlines token.text.toList := by
  obtain ⟨hinline, hcount⟩ := Span.inline_ofRole h role
  rw [markup, span, hinline.newlines_markup, hcount]

theorem newline_notMem_markup {token : Token} (h : '\n' ∉ token.text.toList)
    (role : Option Role) : '\n' ∉ markup ⟨token, role⟩ := by
  rw [← newlines_eq_zero, newlines_markup (fun _ => h), newlines_eq_zero]
  exact h

end Labelled

/-! ## What one step writes -/

namespace Walk

open Labelled

theorem entries_of_inline (window : Window) {token : Token} (h : '\n' ∉ token.text.toList) :
    entries window token = [token] := by
  simp [entries, Token.height_of_inline h]

/-- The markup of the pending tokens as it is visible, before a step and after it. -/
def Marks (window : Window) (line next : Nat) (seen : List Token) (token : Token)
    (rest : List Token) : Prop :=
  Text.visible window line ((ofTokens window seen (token :: rest)).flatMap markup)
    = (if window.isAhead line then []
        else markup ⟨(cut window token).1, Role.resolve (cut window token).1.text
          (seen.take (History.capacity - 1)) (((cut window token).2 ++ rest).take 2)⟩)
      ++ Text.visible window next
          ((ofTokens window (token :: seen) ((cut window token).2 ++ rest)).flatMap markup)

theorem marks_of_inline {window : Window} {line : Nat} {token : Token}
    (hp : window.isPast line = false) (h : '\n' ∉ token.text.toList) (seen rest : List Token) :
    Marks window line line seen token rest := by
  have hinline := newline_notMem_markup h
    (Role.resolve token.text (seen.take (History.capacity - 1)) (rest.take 2))
  rw [Marks, cut_of_inline window h, ofTokens, List.flatMap_cons, visible_append,
    newlines_eq_zero.2 hinline, visible_of_newline_notMem window line hinline,
    entries_of_inline window h]
  cases ha : window.isAhead line <;> simp [Window.shows, ha, hp]

theorem visible_markup_of_newline {window : Window} {line : Nat} {token : Token}
    {row below : List Char} (hp : window.isPast line = false)
    (hkind : token.kind.isSplittable = true) (ht : token.text.toList = row ++ '\n' :: below)
    (hr : '\n' ∉ row) (seen rest : List Token) :
    Text.visible window line ((ofTokens window seen (token :: rest)).flatMap markup)
      = (if window.isAhead line then [] else plain token.kind row)
        ++ ((if window.showsEnd line then ['\n'] else [])
          ++ Text.visible window (line + 1) (plain token.kind below
            ++ (ofTokens window (entries window token ++ seen) rest).flatMap markup)) := by
  have hrow := newline_notMem_plain token.kind hr
  rw [ofTokens, List.flatMap_cons, markup_of_splittable hkind, ht, plain_append_newline _ hr,
    List.append_assoc, Text.visible_append, newlines_eq_zero.2 hrow, List.cons_append,
    Text.visible_newline, Nat.add_zero, Text.visible_of_newline_notMem window line hrow]
  cases hahead : window.isAhead line <;> simp [Window.shows, hahead, hp]

section Newline

variable {window : Window} {line : Nat} {token : Token} {row below : List Char}
  (ha : window.isActive = true) (hp : window.isPast line = false) (hline : token.line = line)
  (hkind : token.kind.isSplittable = true) (ht : token.text.toList = row ++ '\n' :: below)
  (hr : '\n' ∉ row) (seen rest : List Token)

include ha hp hline hkind ht hr in
theorem marks_of_last_line (hend : window.isAtEnd line = true) :
    Marks window line (line + 1) seen token rest := by
  have hcut := cut_of_newline ha hkind ht hr
  rw [if_pos (by rwa [hline])] at hcut
  have hpast : window.isPast (line + 1) = true := by rwa [Window.isPast_succ_eq]
  have hnone : window.showsEnd line = false := by simp [Window.showsEnd, hend]
  have hpiece : ∀ role, markup ⟨(cut window token).1, role⟩ = plain token.kind row := by
    intro role
    rw [hcut]
    exact markup_ofList hkind row token.line role
  rw [Marks, visible_markup_of_newline hp hkind ht hr, hnone, visible_of_isPast hpast,
    visible_of_isPast hpast, hpiece]
  simp

include ha hkind ht hr in
/-- What is recorded of a token, and of what is left of it after its first newline, is to a scan the
same as what is recorded of the token in all. -/
theorem map_mark_entries_remainder (hb : below ≠ []) :
    (entries window (token.remainder (String.ofList below)) ++ token :: seen).map Token.mark
      = (entries window token ++ seen).map Token.mark := by
  have hmark : (token.remainder (String.ofList below)).mark = token.mark :=
    (@Token.mark_of_splittable (token.remainder _) hkind).trans (Token.mark_of_splittable hkind).symm
  have hheight : token.height = (token.remainder (String.ofList below)).height + 1 :=
    Token.height_of_newline ht hr hb (token.line + 1)
  simp only [entries, ha, ↓reduceIte, List.map_append, List.map_replicate, List.map_cons, hmark,
    hheight, List.replicate_succ', List.append_assoc, List.singleton_append]

include ha hkind ht hr in
/-- The markup of what goes back to the list, if the newline of the line has been taken. -/
theorem flatMap_markup_back :
    (ofTokens window (token :: seen)
        ((if below.isEmpty then [] else [token.remainder (String.ofList below)]) ++ rest)).flatMap
          markup
      = plain token.kind below
        ++ (ofTokens window (entries window token ++ seen) rest).flatMap markup := by
  cases below with
  | nil =>
    have hone : entries window token = [token] := by
      simp [entries, Token.height, ht, newlines_eq_zero.2 hr]
    rw [hone]
    rfl
  | cons c below =>
    have hmarks := map_mark_entries_remainder ha hkind ht hr seen (List.cons_ne_nil c below)
    rw [List.isEmpty_cons, if_neg Bool.false_ne_true, List.singleton_append, ofTokens,
      List.flatMap_cons, ofTokens_congr window hmarks, Token.remainder, markup_ofList hkind]

include ha hp hline hkind ht hr in
theorem marks_of_line_end (hend : window.isAtEnd line = false) :
    Marks window line (line + 1) seen token rest := by
  have hcut := cut_of_newline ha hkind ht hr
  rw [if_neg (by simp [hline, hend])] at hcut
  have hshown : window.showsEnd line = !window.isAhead line := by simp [Window.showsEnd, hend]
  have hpiece : ∀ role,
      markup ⟨(cut window token).1, role⟩ = plain token.kind row ++ ['\n'] := by
    intro role
    rw [hcut]
    exact (markup_ofList hkind _ token.line role).trans (plain_append_newline _ hr [])
  rw [Marks, visible_markup_of_newline hp hkind ht hr, hshown, hpiece, hcut,
    flatMap_markup_back ha hkind ht hr]
  cases window.isAhead line <;> simp

end Newline

theorem InStep.marks {window : Window} {line : Nat} {token : Token} {rest : List Token}
    (ha : window.isActive = true) (h : InStep window line (token :: rest))
    (hp : window.isPast token.line = false) (seen : List Token) :
    ∃ next, Advances window line next token rest ∧ Marks window line next seen token rest := by
  obtain ⟨hline, hpast, ⟨hinline, hadv⟩ | ⟨row, below, hkind, ht, hr, hadv⟩⟩ :=
    h.advances_cases ha hp
  · exact ⟨line, hadv, marks_of_inline hpast hinline seen rest⟩
  · refine ⟨line + 1, hadv, ?_⟩
    cases hend : window.isAtEnd line with
    | true => exact marks_of_last_line ha hpast hline hkind ht hr seen rest hend
    | false => exact marks_of_line_end ha hpast hline hkind ht hr seen rest hend

/-! ## What a whole walk writes -/

/-- The history holds the last entries that were recorded. -/
def Remembers (history : History) (seen : List Token) : Prop :=
  history.toList = seen.take History.capacity

theorem Remembers.push {history : History} {seen : List Token} (h : Remembers history seen)
    (token : Token) : Remembers (history.push token) (token :: seen) := by
  rw [Remembers, History.toList_push, h]
  simp [History.capacity, List.take_take]

theorem Remembers.span_eq {history : History} {seen : List Token} (h : Remembers history seen)
    (token piece : Token) (ahead : List Token) :
    View.span ⟨piece, history.push token, ahead⟩
      = Labelled.span ⟨piece, Role.resolve piece.text (seen.take (History.capacity - 1))
          (ahead.take 2)⟩ := by
  have hbefore : (history.push token).toList.tail = seen.take (History.capacity - 1) := by
    rw [h.push token]
    rfl
  rw [View.span, Span.ofToken_eq_ofRole, hbefore]
  rfl

/-- What a walk writes is what is visible of the markup of the pending tokens. -/
theorem Yields.flatMap_markup_eq_visible {walk after : Walk} {views : List View}
    (h : Yields walk views after) (ha : walk.window.isActive = true)
    (hfin : walk.finished = false) {line : Nat} (hin : InStep walk.window line walk.pending)
    {seen : List Token} (hseen : Remembers walk.history seen) :
    (views.map View.span).flatMap Span.markup
      = Text.visible walk.window line
          ((ofTokens walk.window seen walk.pending).flatMap markup) := by
  induction h generalizing line seen with
  | finished hf =>
    rw [hf] at hfin
    cases hfin
  | empty _ hpending => rw [hpending]; rfl
  | stop _ hpending hpast =>
    rw [hin.front _ _ hpending] at hpast
    rw [Text.visible_of_isPast hpast]
    rfl
  | @skip walk _ token rest _ _ hpending hpast hahead _ ih =>
    rw [hpending] at hin ⊢
    obtain ⟨next, hadv, hmarks⟩ := hin.marks ha hpast seen
    rw [hadv.line_eq] at hahead
    rw [ih ha hfin hadv.inStep (hseen.push token), hmarks, if_pos hahead]
    rfl
  | @keep walk _ token rest _ _ hpending hpast hahead _ ih =>
    rw [hpending] at hin ⊢
    obtain ⟨next, hadv, hmarks⟩ := hin.marks ha hpast seen
    rw [hadv.line_eq] at hahead
    rw [List.map_cons, List.flatMap_cons, ih ha hfin hadv.inStep (hseen.push token), hmarks,
      if_neg (by simp [hahead]), hseen.span_eq token]
    rfl

/-- In a window without ends each token is shown, labelled from the tokens around it. -/
theorem Yields.map_span_of_open {walk after : Walk} {views : List View}
    (h : Yields walk views after) (hfirst : walk.window.first = none)
    (hlast : walk.window.last = none) (hfin : walk.finished = false) {seen : List Token}
    (hseen : Remembers walk.history seen) :
    views.map View.span = (ofTokens walk.window seen walk.pending).map span := by
  have hactive : walk.window.isActive = false := by simp [Window.isActive, hfirst]
  induction h generalizing seen with
  | finished hf =>
    rw [hf] at hfin
    cases hfin
  | empty _ hpending => rw [hpending]; rfl
  | stop _ _ hpast => simp [Window.isPast, hlast] at hpast
  | skip _ _ _ hahead => simp [Window.isAhead, hfirst] at hahead
  | @keep walk _ token rest _ _ hpending _ _ _ ih =>
    have hcut : cut walk.window token = (token, []) := by simp [cut, hactive]
    rw [List.map_cons, ih hfirst hlast hfin (hseen.push token) hactive, hseen.span_eq token,
      hpending, hcut]
    simp [ofTokens, entries, hactive]

/-- What a walk from its start writes is what its window shows of the markup of all tokens. -/
theorem flatMap_markup_start {tokens : List Token} {window : Window}
    (hplaced : Token.Placed 1 tokens) (hsplit : Token.Splittable tokens)
    (hinv : window.normalized.isInverted = false) :
    ((start tokens window).views.1.map View.span).flatMap Span.markup
      = Text.visible window.normalized 1
          ((ofTokens window.normalized [] tokens).flatMap markup) := by
  have hseen : Remembers (start tokens window).history [] := rfl
  cases ha : window.normalized.isActive with
  | true =>
    exact (yields_views (start tokens window)).flatMap_markup_eq_visible ha hinv
      (.of_placed hplaced hsplit) hseen
  | false =>
    obtain ⟨hf, hl⟩ := Window.eq_none_of_isActive_normalized ha
    rw [Text.visible_of_open hf hl,
      (yields_views (start tokens window)).map_span_of_open hf hl hinv hseen, List.flatMap_map]
    rfl

end Walk

namespace Labelled

theorem newlines_flatMap_markup (window : Window) (seen : List Token) {tokens : List Token}
    (h : Token.Splittable tokens) :
    newlines ((ofTokens window seen tokens).flatMap markup) = newlines (Token.spell tokens) := by
  induction tokens generalizing seen with
  | nil => rfl
  | cons token tokens ih =>
    rw [ofTokens, List.flatMap_cons, newlines_append,
      newlines_markup (fun hkind => h.inline List.mem_cons_self (by rw [hkind]; rfl)), ih _ h.tail,
      Token.spell_cons, newlines_append]

end Labelled

open Labelled in
/-- **A line of an excerpt is the line of its number** in the markup of all tokens. -/
theorem content_of_mem_renderTokens {tokens : List Token} (hplaced : Token.Placed 1 tokens)
    (hsplit : Token.Splittable tokens) {window : Window} {line : Line}
    (h : line ∈ (renderTokens tokens window).lines) :
    1 ≤ line.number
      ∧ (lines ((ofTokens window.normalized [] tokens).flatMap markup))[line.number - 1]?
        = some line.content.toList := by
  obtain ⟨hne, i, row, hi, hnumber, hcontent⟩ := exists_row_of_mem_renderTokens h
  obtain ⟨hinv, hreach⟩ := Walk.reaches_of_pieces_start hplaced hsplit hne
  have hpos := window.one_le_firstLine_normalized
  have hfirst := Window.shows_firstLine_normalized hinv
  have hspans : ∀ span ∈ (Walk.start tokens window).views.1.map Walk.View.span, span.Inline := by
    intro span hmem
    obtain ⟨view, hview, rfl⟩ := List.mem_map.1 hmem
    rw [Walk.View.span, Span.ofToken_eq_ofRole]
    refine (Span.inline_ofRole ?_ _).1
    intro hkind
    rcases (Walk.yields_views (Walk.start tokens window)).mem_pending_or_splittable view hview with
      hpiece | hpiece
    · exact hsplit.inline hpiece (by rw [hkind]; rfl)
    · simp [hkind, Kind.isSplittable] at hpiece
  have hrows : (Walk.start tokens window).contents
      = window.normalized.select 1
          (lines ((ofTokens window.normalized [] tokens).flatMap markup)) := by
    rw [Walk.contents, rows_eq_lines hspans fun hnil => hne ?_,
      Walk.flatMap_markup_start hplaced hsplit hinv, lines_visible hfirst hpos]
    · rwa [newlines_flatMap_markup _ _ hsplit]
    · rw [Walk.pieces, List.map_eq_nil_iff.1 hnil, List.map_nil]
  rw [hrows] at hi
  rw [hcontent, String.toList_ofList, hnumber]
  exact ⟨by omega, Window.getElem?_select hfirst hpos hi⟩

/-! ## Names and their roles -/

theorem Role.label_injective : Function.Injective Role.label := by
  intro role other h
  revert h
  cases role <;> cases other <;> decide

namespace Span

/-- The classes of a name: those of its kind, and those of its role. -/
def nameLabel (label : String) : Option Role → String
  | some role => label ++ " " ++ role.label
  | none => label

theorem ofName_eq (label text : String) (role : Option Role) :
    ofName label text role = { label := some (nameLabel label role), text } := by
  cases role <;> rfl

theorem nameLabel_injective (label : String) : Function.Injective (nameLabel label) := by
  intro role other h
  have hlists := congrArg String.toList h
  cases role with
  | none =>
    cases other with
    | none => rfl
    | some other => simp [nameLabel] at hlists
  | some role =>
    cases other with
    | none => simp [nameLabel] at hlists
    | some other =>
      have hlabel : role.label.toList = other.label.toList := by simpa [nameLabel] using hlists
      rw [Role.label_injective (String.toList_inj.1 hlabel)]

end Span

end Listing
