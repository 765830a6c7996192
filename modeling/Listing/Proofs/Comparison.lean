import Listing.Proofs.Labels

/-!
# Two renderings of a line

What stands on a line are the parts of tokens on it (`Labelled.onLine`), and the line of an excerpt
is their markup (`content_eq_flatMap_onLine`). Which parts these are does not depend on the window,
and a role changes the span of a name only. So two excerpts show on a line the same parts in the
same order, in the same spans but for the names (`Labelled.forall₂_onLine`), and they differ exactly
where a name on the line has two roles (`Labelled.visible_ofTokens_eq_iff`).
-/

namespace Listing

open Text

namespace Labelled

/-! ## What stands on a line -/

/-- The part of a token that stands on the line. -/
def part? (line : Nat) (labelled : Labelled) : Option Labelled :=
  if labelled.token.line ≤ line then
    (lines labelled.token.text.toList)[line - labelled.token.line]?.map fun row =>
      { labelled with token := ⟨labelled.token.kind, String.ofList row, line⟩ }
  else none

/-- The parts of tokens that stand on the line, in order. -/
def onLine (line : Nat) (labelled : List Labelled) : List Labelled :=
  labelled.filterMap (part? line)

/-- The lines of the markup of a token are the markup of its lines. -/
theorem lines_markup {token : Token}
    (h : '\n' ∈ token.text.toList → token.kind.isSplittable = true) (role : Option Role)
    (line : Nat) :
    lines (markup ⟨token, role⟩) = (lines token.text.toList).map fun row =>
      markup ⟨⟨token.kind, String.ofList row, line⟩, role⟩ := by
  by_cases hnewline : '\n' ∈ token.text.toList
  · have hkind := h hnewline
    have hrows : ∀ row ∈ lines token.text.toList,
        (Span.ofToken ⟨token.kind, "", 0⟩ .empty []).part row
          = markup ⟨⟨token.kind, String.ofList row, line⟩, role⟩ := by
      intro row hrow
      rw [markup_ofList hkind, plain_of_inline token.kind (newline_notMem_of_mem_lines hrow)]
    rw [markup_of_splittable hkind, plain, List.map_congr_left hrows]
    refine lines_ofLines (by simp [lines_ne_nil]) ?_
    intro row hrow
    obtain ⟨text, htext, rfl⟩ := List.mem_map.1 hrow
    rw [markup_ofList hkind]
    exact newline_notMem_plain token.kind (newline_notMem_of_mem_lines htext)
  · rw [lines_of_newline_notMem hnewline, List.map_singleton, String.ofList_toList]
    exact lines_of_newline_notMem (newline_notMem_markup hnewline role)

/-- A window of one line shows of a token the part that stands on the line. -/
theorem visible_markup {token : Token}
    (h : '\n' ∈ token.text.toList → token.kind.isSplittable = true) (role : Option Role)
    (line : Nat) :
    visible (.lines line line) token.line (markup ⟨token, role⟩)
      = (part? line ⟨token, role⟩).elim [] markup := by
  rw [visible_lines_self, lines_markup h role line, part?, List.getElem?_map]
  split
  · cases (lines token.text.toList)[line - token.line]? <;> rfl
  · rfl

/-- A window of one line shows of the tokens the parts that stand on the line. -/
theorem visible_ofTokens (window : Window) {tokens : List Token} {first : Nat}
    (hplaced : Token.Placed first tokens) (hsplit : Token.Splittable tokens) (line : Nat)
    (seen : List Token) :
    visible (.lines line line) first ((ofTokens window seen tokens).flatMap markup)
      = (onLine line (ofTokens window seen tokens)).flatMap markup := by
  induction tokens generalizing first seen with
  | nil => rfl
  | cons token tokens ih =>
    have hwhole : token.kind = .quoted .whole → '\n' ∉ token.text.toList :=
      fun hkind => hsplit.inline List.mem_cons_self (by rw [hkind]; rfl)
    obtain ⟨rfl, hrest⟩ := hplaced
    rw [ofTokens, List.flatMap_cons, visible_append, newlines_markup hwhole,
      visible_markup (hsplit token List.mem_cons_self), ih hrest hsplit.tail, onLine, onLine,
      List.filterMap_cons]
    cases part? line _ <;> rfl

/-! ## The parts in two windows -/

/-- The same part of a token, in the same span if it is none of a name. -/
structure Alike (labelled other : Labelled) : Prop where
  token_eq : labelled.token = other.token
  span_eq : labelled.token.kind ≠ .name → labelled.span = other.span

theorem span_of_ne_name {token : Token} (h : token.kind ≠ .name) (role other : Option Role) :
    span ⟨token, role⟩ = span ⟨token, other⟩ := by
  rw [span, span, Span.ofRole, Span.ofRole, if_neg h, if_neg h]

theorem Alike.of_token_eq {labelled other : Labelled} (h : labelled.token = other.token) :
    Alike labelled other := by
  obtain ⟨token, role⟩ := labelled
  obtain ⟨_, role'⟩ := other
  cases h
  exact ⟨rfl, fun hkind => span_of_ne_name hkind role role'⟩

theorem forall₂_ofTokens (window window' : Window) (tokens seen seen' : List Token) :
    List.Forall₂ (fun labelled other => labelled.token = other.token)
      (ofTokens window seen tokens) (ofTokens window' seen' tokens) := by
  induction tokens generalizing seen seen' with
  | nil => exact .nil
  | cons token tokens ih => exact .cons rfl (ih _ _)

theorem rel_part? (line : Nat) {labelled other : Labelled} (h : labelled.token = other.token) :
    Option.Rel Alike (part? line labelled) (part? line other) := by
  unfold part?
  rw [h]
  split
  · cases (lines other.token.text.toList)[line - other.token.line]? with
    | none => exact .none
    | some row => exact .some (.of_token_eq rfl)
  · exact .none

/-- **Two windows have the same parts of tokens on a line**, in the same spans but for the names. -/
theorem forall₂_onLine (window window' : Window) (tokens : List Token) (line : Nat) :
    List.Forall₂ Alike (onLine line (ofTokens window [] tokens))
      (onLine line (ofTokens window' [] tokens)) := by
  have hparts : Relator.LiftFun (fun labelled other : Labelled => labelled.token = other.token)
      (Option.Rel Alike) (part? line) (part? line) := fun _ _ => rel_part? line
  exact List.rel_filterMap hparts (forall₂_ofTokens window window' tokens [] [])

/-! ## Where two renderings are the same -/

theorem markup_of_ne_name {token : Token} (h : token.kind ≠ .name) (role other : Option Role) :
    markup ⟨token, role⟩ = markup ⟨token, other⟩ :=
  congrArg Span.markup (span_of_ne_name h role other)

/-- The markup of a name tells its role, whatever comes after it. -/
theorem role_eq_of_markup_append {token : Token} (hkind : token.kind = .name)
    (hinline : '\n' ∉ token.text.toList) (hne : token.text ≠ "") {role other : Option Role}
    {more rest : List Char}
    (h : markup ⟨token, role⟩ ++ more = markup ⟨token, other⟩ ++ rest) : role = other := by
  have hshape : ∀ role, ∃ tail, markup ⟨token, role⟩
      = "<span class=".toList ++ '\x22'
        :: (encodeEntities (Span.nameLabel token.kind.label role).toList ++ '\x22' :: tail) := by
    intro role
    have hspan : span ⟨token, role⟩
        = { label := some (Span.nameLabel token.kind.label role), text := token.text } := by
      rw [span, Span.ofRole, if_pos hkind, Span.ofName_eq]
    have htext : ¬token.text.toList.isEmpty = true := by simpa using hne
    rw [markup, hspan, Span.markup, Span.rows, lines_of_newline_notMem hinline, List.map_singleton,
      ofLines, Span.part, if_neg htext, Span.toList_wrap_some rfl, Span.attributesMarkup_cons]
    exact ⟨Span.attributesMarkup [] ++ '>' :: (encodeEntities token.text.toList
      ++ "</span>".toList), by simp⟩
  obtain ⟨tail, htail⟩ := hshape role
  obtain ⟨tail', htail'⟩ := hshape other
  rw [htail, htail', List.append_assoc, List.append_assoc, List.append_cancel_left_eq,
    List.cons_append, List.cons_append, List.cons.injEq, List.append_assoc, List.append_assoc] at h
  -- a label ends where its value does
  have hquote := fun cs => @notMem_encodeEntities '\x22' (.inr (.inr rfl)) cs
  have hlabels := congrArg (List.takeWhile (· != '\x22')) h.2
  rw [List.cons_append, List.cons_append, takeWhile_append_cons (hquote _),
    takeWhile_append_cons (hquote _)] at hlabels
  have hdecoded := congrArg decodeEntities hlabels
  rw [decodeEntities_encodeEntities, decodeEntities_encodeEntities] at hdecoded
  exact Span.nameLabel_injective _ (String.toList_inj.1 hdecoded)

/-- On a line, a token and what comes after it are the same in two renderings if what comes after
is, and the token, if it is a name on this line, has one role. -/
theorem visible_markup_append_iff {token : Token} {line : Nat}
    (hinline : token.kind = .name → '\n' ∉ token.text.toList) (hne : token.text ≠ "")
    {role other : Option Role} {more rest : List Char} :
    visible (.lines line line) token.line (markup ⟨token, role⟩) ++ more
        = visible (.lines line line) token.line (markup ⟨token, other⟩) ++ rest
      ↔ (token.kind = .name → token.line = line → role = other) ∧ more = rest := by
  by_cases hkind : token.kind = .name
  · have htext := hinline hkind
    rw [visible_of_newline_notMem _ _ (newline_notMem_markup htext role),
      visible_of_newline_notMem _ _ (newline_notMem_markup htext other)]
    by_cases hline : token.line = line
    · have hshows : (Window.lines line line).shows token.line = true :=
        Window.shows_lines_self.2 hline
      rw [if_pos hshows, if_pos hshows]
      constructor
      · intro h
        obtain rfl := role_eq_of_markup_append hkind htext hne h
        exact ⟨fun _ _ => rfl, List.append_cancel_left h⟩
      · rintro ⟨hrole, rfl⟩
        rw [hrole hkind hline]
    · have hshows : ¬(Window.lines line line).shows token.line = true :=
        fun h => hline (Window.shows_lines_self.1 h)
      simp [hshows, hline]
  · rw [markup_of_ne_name hkind role other, List.append_cancel_left_eq]
    simp [hkind]

/-- **Two renderings of a line are the same** if, and only if, each name on the line has one role
in both. -/
theorem visible_ofTokens_eq_iff (window window' : Window) {tokens : List Token} {first : Nat}
    (hplaced : Token.Placed first tokens) (hsplit : Token.Splittable tokens)
    (htexts : ∀ token ∈ tokens, token.text ≠ "") (line : Nat) (seen seen' : List Token) :
    visible (.lines line line) first ((ofTokens window seen tokens).flatMap markup)
        = visible (.lines line line) first ((ofTokens window' seen' tokens).flatMap markup)
      ↔ ∀ before name after, tokens = before ++ name :: after → name.kind = .name →
        name.line = line →
        Role.resolve name.text ((before.reverse.flatMap (Walk.entries window) ++ seen).take
            (History.capacity - 1)) (after.take 2)
          = Role.resolve name.text ((before.reverse.flatMap (Walk.entries window') ++ seen').take
            (History.capacity - 1)) (after.take 2) := by
  induction tokens generalizing first seen seen' with
  | nil => simp [ofTokens]
  | cons token tokens ih =>
    have hwhole : token.kind = .quoted .whole → '\n' ∉ token.text.toList :=
      fun hkind => hsplit.inline List.mem_cons_self (by rw [hkind]; rfl)
    have hinline : token.kind = .name → '\n' ∉ token.text.toList :=
      fun hkind => hsplit.inline List.mem_cons_self (by rw [hkind]; rfl)
    obtain ⟨rfl, hrest⟩ := hplaced
    have htail := ih hrest hsplit.tail
      (fun found hfound => htexts found (List.mem_cons_of_mem _ hfound))
      (Walk.entries window token ++ seen) (Walk.entries window' token ++ seen')
    simp only [ofTokens, List.flatMap_cons, visible_append, newlines_markup hwhole]
    rw [visible_markup_append_iff hinline (htexts token List.mem_cons_self), htail]
    constructor
    · rintro ⟨hhead, hmore⟩ before name after hsplit' hkind hline
      cases before with
      | nil =>
        cases hsplit'
        exact hhead hkind hline
      | cons found before =>
        cases hsplit'
        simpa using hmore before name after rfl hkind hline
    · intro h
      refine ⟨fun hkind hline => h [] token tokens rfl hkind hline, ?_⟩
      intro before name after hsplit' hkind hline
      simpa using h (token :: before) name after (by rw [hsplit', List.cons_append]) hkind hline

end Labelled

/-- A line of an excerpt is the markup of the parts of tokens that stand on it. -/
theorem content_eq_flatMap_onLine {tokens : List Token} (hplaced : Token.Placed 1 tokens)
    (hsplit : Token.Splittable tokens) {window : Window} {line : Line}
    (h : line ∈ (renderTokens tokens window).lines) :
    line.content.toList
      = (Labelled.onLine line.number (Labelled.ofTokens window.normalized [] tokens)).flatMap
          Labelled.markup := by
  obtain ⟨hpos, hrow⟩ := content_of_mem_renderTokens hplaced hsplit h
  rw [← visible_line hpos hrow, Labelled.visible_ofTokens _ hplaced hsplit]

/-- **A window changes the markup of a line only by what it forgets.** A line has the same text in
the excerpt of a window and in that of the whole source, and it is the same if, and only if, each
name on it has one role in both. In any case the two are the markup of the same parts of tokens, of
which those that are no names are in the same spans. -/
theorem render_line_eq_full_iff {source : String} {tokens : List Token}
    (h : tokensOf source = .ok tokens) (window : Window) :
    ∃ excerpt whole, render source window = .ok excerpt ∧ render source .full = .ok whole
      ∧ ∀ line ∈ excerpt.lines, ∀ same ∈ whole.lines, line.number = same.number →
        let parts := Labelled.onLine line.number (Labelled.ofTokens window.normalized [] tokens)
        let others := Labelled.onLine line.number (Labelled.ofTokens .full [] tokens)
        decodeMarkup line.content.toList = decodeMarkup same.content.toList
        ∧ (line.content = same.content
          ↔ ∀ before name after, tokens = before ++ name :: after → name.kind = .name →
            name.line = line.number →
            Walk.role window.normalized before name after
              = Walk.role .full before name after)
        ∧ line.content.toList = parts.flatMap Labelled.markup
        ∧ same.content.toList = others.flatMap Labelled.markup
        ∧ List.Forall₂ (fun part other => part.token = other.token
            ∧ (part.token.kind ≠ .name → part.span = other.span)) parts others := by
  have hplaced := placed_tokenize h
  have hformed := fun token (hmem : token ∈ tokens) => formed_of_mem_tokenize h hmem
  have hsplit := Token.Splittable.of_formed hformed
  have htexts := fun token (hmem : token ∈ tokens) => text_ne_empty_of_mem_tokenize h hmem
  refine ⟨renderTokens tokens window.normalized, renderTokens tokens .full, by rw [render, h]; rfl,
    by rw [render, h]; rfl, ?_⟩
  intro line hline same hsame hnumber parts others
  have hcontent : line.content.toList = parts.flatMap Labelled.markup := by
    rw [content_eq_flatMap_onLine hplaced hsplit hline, Window.normalized_normalized]
  have hcontent' : same.content.toList = others.flatMap Labelled.markup := by
    rw [content_eq_flatMap_onLine hplaced hsplit hsame, ← hnumber]
    rfl
  refine ⟨?_, ?_, hcontent, hcontent', ?_⟩
  · have htext := (decodeMarkup_of_mem_renderTokens hplaced hformed hline).2
    have htext' := (decodeMarkup_of_mem_renderTokens hplaced hformed hsame).2
    rw [← hnumber, htext] at htext'
    exact Option.some.inj htext'
  · rw [← String.toList_inj, hcontent, hcontent', ← Labelled.visible_ofTokens _ hplaced hsplit,
      ← Labelled.visible_ofTokens _ hplaced hsplit,
      Labelled.visible_ofTokens_eq_iff _ _ hplaced hsplit htexts]
    simp only [List.append_nil]
    rfl
  · exact (Labelled.forall₂_onLine window.normalized .full tokens line.number).imp
      fun _ _ halike => ⟨halike.token_eq, halike.span_eq⟩

/-- A line that begins with a name, when the scan for its role is still in sight of the `new` two
lines above. -/
theorem render_line_eq_full_iff_new :
    ∃ excerpt whole, render "<?php new\n\nFoo();" (.lines 3 3) = .ok excerpt
      ∧ render "<?php new\n\nFoo();" .full = .ok whole
      ∧ excerpt.lines.map Line.number = [3] ∧ whole.lines.map Line.number = [1, 2, 3]
      ∧ ∀ line ∈ excerpt.lines, ∀ same ∈ whole.lines, line.number = same.number →
        line.content = same.content := by
  have h : (tokenize "<?php new\n\nFoo();").toOption = some
      [⟨.tag .open_, "<?php ", 1⟩, ⟨.keyword .new, "new", 1⟩, ⟨.whitespace, "\n\n", 1⟩,
        ⟨.name, "Foo", 3⟩, ⟨.punct, "(", 3⟩, ⟨.punct, ")", 3⟩, ⟨.punct, ";", 3⟩] := by
    decide +kernel
  have hnumbers : ∀ numbered ∈ [(Window.lines 3 3, [3]), (Window.full, [1, 2, 3])],
      (render "<?php new\n\nFoo();" numbered.1).toOption.map
        (fun excerpt => excerpt.lines.map Line.number) = some numbered.2 := by decide +kernel
  obtain ⟨excerpt, whole, hexcerpt, hwhole, hlines⟩ := render_line_eq_full_iff
    (tokensOf_of_tokenize (by decide) (Lexer.tokenize_of_toOption h)) (.lines 3 3)
  have hthree := hnumbers (.lines 3 3, [3]) (by simp)
  have hall := hnumbers (.full, [1, 2, 3]) (by simp)
  rw [hexcerpt] at hthree
  rw [hwhole] at hall
  refine ⟨excerpt, whole, hexcerpt, hwhole, Option.some.inj hthree, Option.some.inj hall, ?_⟩
  intro line hline same hsame hnumber
  refine (hlines line hline same hsame hnumber).2.1.2 ?_
  intro before name after hsplit hkind _
  -- the only name is the fourth token
  obtain ⟨rfl, rfl, rfl⟩ : before = [⟨.tag .open_, "<?php ", 1⟩, ⟨.keyword .new, "new", 1⟩,
      ⟨.whitespace, "\n\n", 1⟩] ∧ name = ⟨.name, "Foo", 3⟩
      ∧ after = [⟨.punct, "(", 3⟩, ⟨.punct, ")", 3⟩, ⟨.punct, ";", 3⟩] := by
    simp only [List.cons_eq_append_iff, List.nil_eq, List.append_eq_nil_iff, reduceCtorEq] at hsplit
    grind
  decide +kernel

/-- After nineteen newlines the `new` is forgotten in a window that leaves lines out, and what was
the name of a class is taken for that of a function. -/
theorem render_line_differs_from_full :
    ∃ excerpt whole,
      render "<?php new\n\n\n\n\n\n\n\n\n\n\n\n\n\n\n\n\n\n\nFoo();" (.fromLine 20) = .ok excerpt
        ∧ render "<?php new\n\n\n\n\n\n\n\n\n\n\n\n\n\n\n\n\n\n\nFoo();" .full = .ok whole
        ∧ ∃ line ∈ excerpt.lines, ∃ same ∈ whole.lines,
          line.number = same.number ∧ line.content ≠ same.content := by
  have h : (tokenize "<?php new\n\n\n\n\n\n\n\n\n\n\n\n\n\n\n\n\n\n\nFoo();").toOption
      = some
        [⟨.tag .open_, "<?php ", 1⟩, ⟨.keyword .new, "new", 1⟩,
          ⟨.whitespace, "\n\n\n\n\n\n\n\n\n\n\n\n\n\n\n\n\n\n\n", 1⟩, ⟨.name, "Foo", 20⟩,
          ⟨.punct, "(", 20⟩, ⟨.punct, ")", 20⟩, ⟨.punct, ";", 20⟩] := by decide +kernel
  have hrender := render_of_tokenize (by decide) (Lexer.tokenize_of_toOption h)
  exact ⟨_, _, hrender (.fromLine 20), hrender .full, by decide +kernel⟩

end Listing
