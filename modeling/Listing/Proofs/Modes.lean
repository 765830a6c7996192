import Listing.Proofs.Joined

/-!
# Text and program take turns

The lexemes of a source are those of a machine with two modes (`Accepts`). It begins in the text
around the program, where an opening tag leads into the program, and a closing tag leads back.
Inside the program no text stands but what follows a halted program: it is the last lexeme, and
stands right behind the semicolon that ends the halt's own statement.

The reader keeps no mode. Its contexts stand for one (`Context.Stands`): the two in which text is
read, and all the others, which are inside the program whatever they are nested in
(`Context.InProgram`). What one step does to the machine is `Context.step_stands`. Behind a halt
the reader is done with the program in either mode, by a semicolon or by a closing tag.

Text outside the program holds no opening tag (`Spares`), as the reader stops at the first there
is. Text behind a halt may.
-/

namespace Listing

open Text

/-! ## Opening tags -/

namespace Lexer.Markup

/-- An opening tag is ahead: `<?=`, or `<?php` in any capitals with a space or the end of the source
behind it. -/
def TagAhead (cs : List Char) : Prop :=
  (∃ rest, cs = '<' :: '?' :: '=' :: rest)
    ∨ ∃ word rest, cs = '<' :: '?' :: (word ++ rest) ∧ lower word = ['p', 'h', 'p']
      ∧ (rest = [] ∨ headIs isSpace rest = true)

theorem exists_word_of_lower {text : List Char} (h : lower text = ['<', '?', 'p', 'h', 'p']) :
    ∃ word, text = '<' :: '?' :: word ∧ lower word = ['p', 'h', 'p'] := by
  rcases text with _ | ⟨a, _ | ⟨b, word⟩⟩
  · simp [lower] at h
  · simp [lower] at h
  · simp only [lower, List.map_cons, List.cons.injEq] at h
    refine ⟨word, ?_, h.2.2⟩
    rw [eq_of_toLower h.1 (by decide), eq_of_toLower h.2.1 (by decide)]

theorem openTag?_of_word {word : List Char} (h : lower word = ['p', 'h', 'p']) (rest : List Char) :
    openTag? ('<' :: '?' :: (word ++ rest))
      = match rest with
        | [] => some (⟨.tag .open_, '<' :: '?' :: word⟩, [])
        | c :: rest =>
          if isSpace c then some (⟨.tag .open_, '<' :: '?' :: word ++ [c]⟩, rest) else none := by
  rcases word with _ | ⟨a, _ | ⟨b, _ | ⟨c, _ | ⟨d, word⟩⟩⟩⟩
  · simp [lower] at h
  · simp [lower] at h
  · simp [lower] at h
  · have ha : '=' ≠ a := by
      rintro rfl
      exact absurd (List.cons.inj h).1 (by decide)
    have hecho : strip? ['<', '?', '='] ('<' :: '?' :: ([a, b, c] ++ rest)) = none := by
      simp [strip?, ha]
    have hword : stripAnyCase? ['<', '?', 'p', 'h', 'p'] ('<' :: '?' :: ([a, b, c] ++ rest))
        = some ('<' :: '?' :: [a, b, c], rest) :=
      if_pos (congrArg (fun cs => '<' :: '?' :: cs) h)
    rw [openTag?, hecho, hword]
    cases rest <;> rfl
  · simp [lower] at h

theorem opens_iff {cs : List Char} : opens cs = true ↔ TagAhead cs := by
  constructor
  · intro h
    obtain ⟨⟨tag, after⟩, hfound⟩ := Option.isSome_iff_exists.1 h
    unfold openTag? at hfound
    split at hfound
    · next rest hecho => exact .inl ⟨rest, (strip?_eq_some hecho).symm⟩
    · split at hfound
      · cases hfound
      · next text hword =>
        obtain ⟨happ, hlower⟩ := stripAnyCase?_eq_some hword
        obtain ⟨word, rfl, hphp⟩ := exists_word_of_lower hlower
        exact .inr ⟨word, [], happ.symm, hphp, .inl rfl⟩
      · next text c rest hword =>
        obtain ⟨happ, hlower⟩ := stripAnyCase?_eq_some hword
        obtain ⟨word, rfl, hphp⟩ := exists_word_of_lower hlower
        split at hfound
        · next hspace => exact .inr ⟨word, c :: rest, happ.symm, hphp, .inr hspace⟩
        · cases hfound
  · rintro (⟨rest, rfl⟩ | ⟨word, rest, rfl, hphp, hrest⟩)
    · rfl
    · rw [opens, openTag?_of_word hphp]
      rcases hrest with rfl | hspace
      · rfl
      · cases rest with
        | nil => cases hspace
        | cons c rest =>
          rw [headIs_cons] at hspace
          simp [hspace]

end Lexer.Markup

/-! ## The machine -/

/-- Outside or inside the program. -/
inductive Mode where
  | html
  | code
  deriving DecidableEq, Repr

/-- The tags that lead into the program. -/
def Kind.isOpenTag : Kind → Bool
  | .tag .open_ | .tag .openEcho => true
  | _ => false

/-- A halt is among the lexemes. -/
def Lexeme.Halted (lexemes : List Lexeme) : Prop :=
  ∃ halt ∈ lexemes, halt.kind = .haltCompiler

theorem Lexeme.Halted.append {before : List Lexeme} (h : Halted before) (lexemes : List Lexeme) :
    Halted (lexemes ++ before) := by
  obtain ⟨halt, hmem, hkind⟩ := h
  exact ⟨halt, List.mem_append_right _ hmem, hkind⟩

/-- The runs of lexemes that a mode allows, behind those `before`, of which the last is first. -/
inductive Accepts : Mode → List Lexeme → List Lexeme → Prop
  | done {mode : Mode} {before : List Lexeme} : Accepts mode before []
  /-- Text runs up to an opening tag, or to the end. -/
  | text {before after : List Lexeme} {text : Lexeme} : text.kind = .html →
      (∀ next ∈ after.head?, next.kind.isOpenTag = true) → Accepts .html (text :: before) after →
      Accepts .html before (text :: after)
  | opening {before after : List Lexeme} {tag : Lexeme} : tag.kind.isOpenTag = true →
      Accepts .code (tag :: before) after → Accepts .html before (tag :: after)
  | token {before after : List Lexeme} {token : Lexeme} : token.kind.isInside = true →
      Accepts .code (token :: before) after → Accepts .code before (token :: after)
  | closing {before after : List Lexeme} {tag : Lexeme} : tag.kind = .tag .close →
      Accepts .html (tag :: before) after → Accepts .code before (tag :: after)
  /-- What follows a halted program is last, and stands right behind a semicolon. -/
  | data {before : List Lexeme} {last text : Lexeme} : last.isPunct ';' = true →
      Lexeme.Halted (last :: before) → text.kind = .html → Accepts .code (last :: before) [text]

/-- Text among the lexemes holds no opening tag, seen with what follows, unless it is what follows a
halted program; those `before` have the last of them first. -/
def Spares (before : List Lexeme) : List Lexeme → Prop
  | [] => True
  | lexeme :: after =>
    (lexeme.kind = .html →
      (∀ k < lexeme.text.length,
          ¬Lexer.Markup.TagAhead (lexeme.text.drop k ++ Lexeme.spell after))
        ∨ after = [] ∧ Lexeme.Halted before)
      ∧ Spares (lexeme :: before) after

theorem Accepts.inside {before lexemes after : List Lexeme}
    (hin : ∀ lexeme ∈ lexemes, lexeme.kind.isInside = true)
    (h : Accepts .code (lexemes.reverse ++ before) after) :
    Accepts .code before (lexemes ++ after) := by
  induction lexemes generalizing before with
  | nil => exact h
  | cons lexeme lexemes ih =>
    refine .token (hin lexeme List.mem_cons_self) (ih ?_ ?_)
    · exact fun next hnext => hin next (List.mem_cons_of_mem _ hnext)
    · simpa using h

theorem Spares.of_no_text {before lexemes after : List Lexeme}
    (hnone : ∀ lexeme ∈ lexemes, lexeme.kind ≠ .html)
    (h : Spares (lexemes.reverse ++ before) after) : Spares before (lexemes ++ after) := by
  induction lexemes generalizing before with
  | nil => exact h
  | cons lexeme lexemes ih =>
    refine ⟨fun hkind => absurd hkind (hnone lexeme List.mem_cons_self), ih ?_ ?_⟩
    · exact fun next hnext => hnone next (List.mem_cons_of_mem _ hnext)
    · simpa using h

/-- What is said of each lexeme of a list is said of one in the middle. -/
theorem Spares.apply {before front after : List Lexeme} {lexeme : Lexeme}
    (h : Spares before (front ++ lexeme :: after)) (hkind : lexeme.kind = .html) :
    (∀ k < lexeme.text.length, ¬Lexer.Markup.TagAhead (lexeme.text.drop k ++ Lexeme.spell after))
      ∨ after = [] ∧ Lexeme.Halted (front.reverse ++ before) := by
  induction front generalizing before with
  | nil => exact h.1 hkind
  | cons first front ih => simpa using ih h.2

namespace Lexer

/-! ## Contexts and modes -/

namespace Context

/-- The context is inside the program, past a halt only if there is one before. -/
def InProgram (before : List Lexeme) : Context → Prop
  | .html | .data => False
  | .code => True
  | .halting => Lexeme.Halted before
  | .body _ _ _ outer | .hole _ _ outer => outer.InProgram before

/-- The machine is in this mode where the reader is in the context. -/
def Stands (before : List Lexeme) (mode : Mode) : Context → Prop
  | .html => mode = .html
  | .data => Lexeme.Halted before
      ∧ (mode = .code → ∃ last earlier, before = last :: earlier ∧ last.isPunct ';' = true)
  | context => mode = .code ∧ context.InProgram before

theorem InProgram.append {context : Context} {before : List Lexeme} (h : context.InProgram before)
    (lexemes : List Lexeme) : context.InProgram (lexemes ++ before) := by
  induction context with
  | html | data => exact h
  | code => trivial
  | halting => exact Lexeme.Halted.append h lexemes
  | body _ _ _ outer ih => exact ih h
  | hole _ _ outer ih => exact ih h

theorem InProgram.stands {context : Context} {before : List Lexeme}
    (h : context.InProgram before) : context.Stands before .code := by
  cases context with
  | html | data => exact h.elim
  | code | halting | body | hole => exact ⟨rfl, h⟩

theorem InProgram.afterTag {context next : Context} {before : List Lexeme}
    (h : context.InProgram before) (hnext : context.afterTag = .ok next) :
    next.Stands before .html := by
  cases context with
  | html | data => exact h.elim
  | code => cases hnext; rfl
  | halting => cases hnext; exact ⟨h, nofun⟩
  | body => cases hnext; rfl
  | hole => cases hnext

theorem InProgram.afterLexeme {context : Context} {before : List Lexeme}
    (h : context.InProgram before) (last : Lexeme) (lexemes : List Lexeme) :
    (context.afterLexeme last).Stands (last :: lexemes ++ before) .code := by
  have happ := h.append (last :: lexemes)
  cases context with
  | html | data => exact h.elim
  | code =>
    simp only [Context.afterLexeme]
    split
    · next hhalt => exact ⟨rfl, last, List.mem_cons_self, hhalt⟩
    · exact ⟨rfl, happ⟩
  | halting =>
    simp only [Context.afterLexeme]
    split
    · next hend => exact ⟨happ, fun _ => ⟨last, _, rfl, hend⟩⟩
    · exact ⟨rfl, happ⟩
  | body => exact ⟨rfl, happ⟩
  | hole depth opened outer =>
    have houter : outer.InProgram (last :: lexemes ++ before) := happ
    simp only [Context.afterLexeme]
    split
    · exact ⟨rfl, houter⟩
    · split
      · split
        -- The brace closes the hole: the context is the one around it.
        · exact houter.stands
        · exact ⟨rfl, houter⟩
      · exact ⟨rfl, houter⟩

/-! ## What one step does -/

/-- The machine goes on from one mode to another over the lexemes of a step, whatever is read after
them. -/
def Passes (before : List Lexeme) (mode : Mode) (step : Step) (next : Mode) : Prop :=
  ∀ after, Lexeme.spell after = step.rest → (step.rest = [] → after = []) →
    Accepts next (step.lexemes.reverse ++ before) after
      ∧ Spares (step.lexemes.reverse ++ before) after →
    Accepts mode before (step.lexemes ++ after) ∧ Spares before (step.lexemes ++ after)

theorem Passes.inside {before : List Lexeme} {step : Step}
    (h : ∀ lexeme ∈ step.lexemes, lexeme.kind.isInside = true) :
    Passes before .code step .code := by
  intro after _ _ hafter
  refine ⟨hafter.1.inside h, hafter.2.of_no_text ?_⟩
  intro lexeme hmem hkind
  have := h lexeme hmem
  rw [hkind] at this
  cases this

theorem Passes.closing {before : List Lexeme} {step : Step} {text : List Char}
    (h : step.lexemes = [⟨.tag .close, text⟩]) : Passes before .code step .html := by
  intro after _ _ hafter
  rw [h] at hafter ⊢
  exact ⟨.closing rfl hafter.1, nofun, hafter.2⟩

theorem stepCode_stands {context : Context} {before : List Lexeme} (h : context.InProgram before)
    {line : Nat} {previous : Option Kind} {cs : List Char} {next : Step} (hne : cs ≠ [])
    (hs : context.stepCode line previous cs = .ok next) :
    ∃ mode, next.context.Stands (next.lexemes.reverse ++ before) mode
      ∧ Passes before .code next mode := by
  obtain ⟨scan, after, hscan, hafter, rfl⟩ := exists_scan_of_stepCode hs
  rcases Code.scan_inside_or_leaves hne hscan with hin | ⟨hturn, text, hlexemes⟩
  · refine ⟨.code, ?_, .inside hin.lexemes⟩
    obtain ⟨hturn, -⟩ | ⟨closer, -, rfl⟩ | ⟨-, last, hlast, rfl⟩ | ⟨-, rfl⟩ :=
      afterScan_cases hafter
    · exact absurd hturn hin.turn
    · exact ⟨rfl, h.append _⟩
    · obtain ⟨front, hfront⟩ := List.getLast?_eq_some_iff.1 hlast
      dsimp only
      rw [hfront, List.reverse_append]
      exact h.afterLexeme last front.reverse
    · exact (h.append _).stands
  · rw [afterScan, hturn] at hafter
    exact ⟨.html, (h.append _).afterTag hafter, .closing hlexemes⟩

/-- No opening tag begins in the text before the first one. -/
theorem not_tagAhead_before (cs : List Char) {k : Nat}
    (hk : k < (Text.before Markup.opens cs).length) :
    ¬Markup.TagAhead ((Text.before Markup.opens cs).drop k ++ onward Markup.opens cs) := by
  rw [← Markup.opens_iff, stop_before cs hk]
  nofun

theorem stepHtml_stands (before : List Lexeme) (cs : List Char) :
    ∃ mode, (stepHtml cs).context.Stands ((stepHtml cs).lexemes.reverse ++ before) mode
      ∧ Passes before .html (stepHtml cs) mode := by
  unfold stepHtml
  split
  · next tag rest htag =>
    refine ⟨.code, ⟨rfl, trivial⟩, ?_⟩
    intro after hspell _ hafter
    have hkind : tag.kind.isOpenTag = true := by
      rcases Markup.openTag?_kind htag with h | h <;> rw [h] <;> rfl
    have hnot : tag.kind ≠ .html := by
      rcases Markup.openTag?_kind htag with h | h <;> rw [h] <;> nofun
    have hopen : Lexeme.spell (tag :: after) = onward Markup.opens cs := by
      have hcut := (Markup.openTag?_covers htag).spelled
      rw [Lexeme.spell_cons, hspell, ← hcut]
      simp
    unfold Lexeme.ofText at hafter ⊢
    split
    · next hempty =>
      rw [if_pos hempty] at hafter
      exact ⟨.opening hkind hafter.1, fun h => absurd h hnot, hafter.2⟩
    · next hempty =>
      rw [if_neg hempty] at hafter
      refine ⟨.text rfl ?_ (.opening hkind hafter.1), ?_, fun h => absurd h hnot, hafter.2⟩
      · simpa using hkind
      · intro _
        refine .inl fun k hk => ?_
        have := not_tagAhead_before cs hk
        rwa [← hopen] at this
  · next hnone =>
    refine ⟨.html, rfl, ?_⟩
    intro after _ hlast _
    obtain rfl := hlast rfl
    have hend : onward Markup.opens cs = [] :=
      (onward_eq_nil_or Markup.opens cs).resolve_right (by simp [Markup.opens, hnone])
    have hbefore := before_eq_self hend
    refine ⟨.text rfl (by simp) .done, ?_, trivial⟩
    intro _
    refine .inl fun k hk => ?_
    have := not_tagAhead_before cs (k := k) (by rw [hbefore]; exact hk)
    rwa [hbefore, hend] at this

theorem stepBody_stands {closer : Closer} {opened line : Nat} {fresh : Bool} {outer : Context}
    {before : List Lexeme} (h : (Context.body closer opened fresh outer).InProgram before)
    {cs : List Char} {next : Step}
    (hs : stepBody closer opened fresh outer line cs = .ok next) :
    next.context.Stands (next.lexemes.reverse ++ before) .code
      ∧ Passes before .code next .code := by
  obtain ⟨text, event, hseek, rfl⟩ := exists_seek_of_stepBody hs
  have happ := h.append (Lexeme.ofText .literal text ++ event.lexemes).reverse
  refine ⟨?_, .inside ?_⟩
  · cases event with
    | close =>
      have houter : outer.InProgram _ := happ
      exact houter.stands
    | splice => exact ⟨rfl, happ⟩
    | hole => exact ⟨rfl, happ⟩
  · intro lexeme hmem
    rcases List.mem_append.1 hmem with hmem | hmem
    · exact isInside_of_mem_ofText rfl _ lexeme hmem
    · exact Body.seek_isInside hseek lexeme hmem

/-- What follows a halted program is read in one step. -/
theorem data_passes {before : List Lexeme} {mode : Mode}
    (h : Context.data.Stands before mode) (cs : List Char) :
    Passes before mode ⟨[⟨.html, cs⟩], [], .data⟩ .html := by
  intro after _ hlast _
  obtain rfl := hlast rfl
  refine ⟨?_, fun _ => .inr ⟨rfl, h.1⟩, trivial⟩
  cases mode with
  | html => exact .text rfl (by simp) .done
  | code =>
    obtain ⟨last, earlier, rfl, hend⟩ := h.2 rfl
    exact .data hend h.1 rfl

/-- What one step keeps: the context that it leads to stands for the mode in which the machine is
after its lexemes. -/
theorem step_stands {context : Context} {before : List Lexeme} {mode : Mode}
    (h : context.Stands before mode) {line : Nat} {previous : Option Kind} {cs : List Char}
    {next : Step} (hne : cs ≠ []) (hs : context.step line previous cs = .ok next) :
    ∃ mode', next.context.Stands (next.lexemes.reverse ++ before) mode'
      ∧ Passes before mode next mode' := by
  cases context with
  | html =>
    cases h
    cases hs
    exact stepHtml_stands before cs
  | data =>
    cases hs
    exact ⟨.html, ⟨h.1.append _, nofun⟩, data_passes h cs⟩
  | code | halting | hole =>
    obtain ⟨rfl, hprogram⟩ := h
    exact stepCode_stands hprogram hne hs
  | body closer opened fresh outer =>
    obtain ⟨rfl, hprogram⟩ := h
    exact ⟨.code, stepBody_stands hprogram hs⟩

end Context

/-- What a whole reading keeps. -/
theorem Reads.modes {state : State} {lexemes : List Lexeme} (h : Reads state lexemes)
    {before : List Lexeme} {mode : Mode} (hs : state.context.Stands before mode) :
    Accepts mode before lexemes ∧ Spares before lexemes := by
  induction h generalizing before mode with
  | done => exact ⟨.done, trivial⟩
  | step hne hstep hrest ih =>
    obtain ⟨mode', hnext, hpasses⟩ := Context.step_stands hs hne hstep
    refine hpasses _ hrest.spell_eq ?_ (ih hnext)
    -- A step that has used up the source is the last.
    intro hend
    cases hrest with
    | done => rfl
    | step hne => exact absurd hend hne

end Lexer

/-! ## Tokens -/

/-- **Text and program take turns**: the tokens of a source are a run of the machine from the text
around the program, and no opening tag begins within a token of text, but for text that is last and
has a halt before it. -/
theorem tokenize_modes {source : String} {tokens : List Token} (h : tokenize source = .ok tokens) :
    Accepts .html [] (tokens.map Token.lexeme)
      ∧ ∀ before text after, tokens = before ++ text :: after → text.kind = .html →
          (∀ k, (Token.spell before).length ≤ k →
              k < (Token.spell before).length + text.text.toList.length →
              ¬Lexer.Markup.TagAhead (source.toList.drop k))
            ∨ after = [] ∧ ∃ halt ∈ before, halt.kind = .haltCompiler := by
  have hspell := spell_tokenize h
  obtain ⟨lexemes, hreads, rfl⟩ := Lexer.reads_of_tokenize h
  have hstart : (Lexer.State.start source.toList).context.Stands [] .html := rfl
  obtain ⟨haccepts, hspares⟩ := hreads.modes hstart
  refine ⟨by rwa [Token.map_lexeme_place], ?_⟩
  intro before text after htokens hkind
  have hsplit : lexemes = before.map Token.lexeme ++ text.lexeme :: after.map Token.lexeme := by
    rw [← Token.map_lexeme_place 1 lexemes, htokens, List.map_append, List.map_cons]
  rw [hsplit] at hspares
  rcases hspares.apply hkind with htags | ⟨hlast, halt, hmem, hhalt⟩
  · refine .inl fun k hfrom hto => ?_
    obtain ⟨j, rfl⟩ := Nat.exists_eq_add_of_le hfrom
    have hj : j < text.text.toList.length := by omega
    have hdrop : source.toList.drop ((Token.spell before).length + j)
        = text.lexeme.text.drop j ++ Lexeme.spell (after.map Token.lexeme) := by
      rw [← hspell, htokens, Token.spell_append, List.drop_length_add_append, Token.spell_cons,
        List.drop_append_of_le_length (Nat.le_of_lt hj), Token.spell_map_lexeme]
      rfl
    rw [hdrop]
    exact htags j hj
  · refine .inr ⟨by simpa using hlast, ?_⟩
    rw [List.append_nil, List.mem_reverse] at hmem
    obtain ⟨token, htoken, rfl⟩ := List.mem_map.1 hmem
    exact ⟨token, htoken, hhalt⟩

/-- A tag that is none, a program that a closing tag leaves from within a comment, and one that
halts before what looks like a third. -/
theorem tokenize_modes_halted :
    ∃ tokens, tokenize "a<?xml <?PHP\n// b ?>\nc<?=__halt_compiler();<?php d" = .ok tokens
      ∧ tokens.map Token.text
        = ["a<?xml ", "<?PHP\n", "// b ", "?>\n", "c", "<?=", "__halt_compiler", "(", ")", ";",
          "<?php d"]
      ∧ Accepts .html [] (tokens.map Token.lexeme)
      ∧ ∀ before text after, tokens = before ++ text :: after → text.kind = .html →
          (∀ k, (Token.spell before).length ≤ k →
              k < (Token.spell before).length + text.text.toList.length →
              ¬Lexer.Markup.TagAhead
                ("a<?xml <?PHP\n// b ?>\nc<?=__halt_compiler();<?php d".toList.drop k))
            ∨ after = [] ∧ ∃ halt ∈ before, halt.kind = .haltCompiler := by
  have h : (tokenize "a<?xml <?PHP\n// b ?>\nc<?=__halt_compiler();<?php d").toOption = some
      [⟨.html, "a<?xml ", 1⟩, ⟨.tag .open_, "<?PHP\n", 1⟩, ⟨.comment, "// b ", 2⟩,
        ⟨.tag .close, "?>\n", 2⟩, ⟨.html, "c", 3⟩, ⟨.tag .openEcho, "<?=", 3⟩,
        ⟨.haltCompiler, "__halt_compiler", 3⟩, ⟨.punct, "(", 3⟩, ⟨.punct, ")", 3⟩,
        ⟨.punct, ";", 3⟩, ⟨.html, "<?php d", 3⟩] := by decide +kernel
  have h := Lexer.tokenize_of_toOption h
  exact ⟨_, h, rfl, tokenize_modes h⟩

end Listing
