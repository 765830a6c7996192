import Listing.Proofs.Lookahead
import Listing.Proofs.Regions

/-!
# One source behind another

A source that ends with a closing tag and its newline is read the same whatever follows it, and what
follows is read as if it stood alone, further down. Three facts make this up.

* Up to the closing tag each step is stable (`Context.step_append_right`): the rules do not see the
  end of the text, because the seal of the closing tag stands before it (`Rule.Stable`).
* Past it the reader is in the text around the program, where the last kind before does not matter
  (`run_html_previous`).
* A run that starts further down gives the same tokens and errors, further down (`run_shift`).
-/

namespace Listing

open Text

/-! ## Further down -/

/-- The token, `k` lines further down. -/
def Token.shift (k : Nat) (token : Token) : Token :=
  { token with line := token.line + k }

/-- The error, `k` lines further down. -/
def LexError.shift (k : Nat) (error : LexError) : LexError :=
  { error with line := error.line + k }

theorem Token.place_shift (k line : Nat) (lexemes : List Lexeme) :
    place (line + k) lexemes = (place line lexemes).map (shift k) := by
  induction lexemes generalizing line with
  | nil => rfl
  | cons lexeme lexemes ih =>
    rw [place, place, List.map_cons, Nat.add_right_comm, ih]
    rfl

/-- The token without its place. -/
def Token.lexeme (token : Token) : Lexeme :=
  ⟨token.kind, token.text.toList⟩

theorem Token.map_lexeme_place (line : Nat) (lexemes : List Lexeme) :
    (place line lexemes).map lexeme = lexemes := by
  induction lexemes generalizing line with
  | nil => rfl
  | cons lexeme lexemes ih => simp [place, Token.lexeme, ih]

theorem Token.spell_map_lexeme (tokens : List Token) :
    Lexeme.spell (tokens.map Token.lexeme) = Token.spell tokens := by
  simp [Lexeme.spell, Token.spell, List.flatMap_map, Token.lexeme]

namespace Lexer

/-- The result of a run, `k` lines further down. -/
def shiftResult (k : Nat) (result : Except LexError (List Token)) :
    Except LexError (List Token) :=
  match result with
  | .ok tokens => .ok (tokens.map (Token.shift k))
  | .error error => .error (error.shift k)

namespace Context

/-- The context with the lines it remembers `k` further down. -/
def shift (k : Nat) : Context → Context
  | .body closer opened fresh outer => .body closer (opened + k) fresh (outer.shift k)
  | .hole depth opened outer => .hole depth (opened + k) (outer.shift k)
  | context => context

theorem finish_shift (k : Nat) (context : Context) :
    (context.shift k).finish = context.finish.mapError (LexError.shift k) := by
  cases context <;> rfl

theorem afterTag_shift (k : Nat) (context : Context) :
    (context.shift k).afterTag
      = (context.afterTag.map (shift k)).mapError (LexError.shift k) := by
  cases context <;> rfl

theorem afterLexeme_shift (k : Nat) (last : Lexeme) (context : Context) :
    (context.shift k).afterLexeme last = (context.afterLexeme last).shift k := by
  cases context with
  | code =>
    simp only [shift, afterLexeme]
    split <;> rfl
  | halting =>
    simp only [shift, afterLexeme]
    split <;> rfl
  | hole depth opened outer =>
    simp only [shift, afterLexeme]
    split
    · rfl
    · split
      · cases depth <;> rfl
      · rfl
  | html => rfl
  | data => rfl
  | body => rfl

theorem afterScan_shift (k line : Nat) (scan : Scan) (context : Context) :
    (context.shift k).afterScan (line + k) scan
      = ((context.afterScan line scan).map (shift k)).mapError (LexError.shift k) := by
  unfold afterScan
  split
  · exact afterTag_shift k context
  · rfl
  · split
    · rw [afterLexeme_shift]
      rfl
    · rfl

/-- A step, `k` lines further down. -/
def shiftStep (k : Nat) (step : Step) : Step :=
  { step with context := step.context.shift k }

theorem step_shift (k line : Nat) (previous : Option Kind) (cs : List Char) (context : Context) :
    (context.shift k).step (line + k) previous cs
      = ((context.step line previous cs).map (shiftStep k)).mapError (LexError.shift k) := by
  have hcode : (context.shift k).stepCode (line + k) previous cs
      = ((context.stepCode line previous cs).map (shiftStep k)).mapError (LexError.shift k) := by
    unfold stepCode
    cases Code.scan previous cs with
    | error construct => rfl
    | ok scan =>
      dsimp only
      rw [afterScan_shift]
      cases context.afterScan line scan <;> rfl
  cases context with
  | html =>
    simp only [shift, step, stepHtml]
    split <;> rfl
  | data => rfl
  | code => exact hcode
  | halting => exact hcode
  | hole => exact hcode
  | body closer opened fresh outer =>
    simp only [shift, step, stepBody]
    cases Body.seek closer fresh cs with
    | none => rfl
    | some found =>
      obtain ⟨text, event⟩ := found
      cases event with
      | close => rfl
      | splice => rfl
      | hole =>
        dsimp only
        rw [Nat.add_right_comm]
        rfl

end Context

/-- The reader, `k` lines further down. -/
def State.shift (k : Nat) (state : State) : State :=
  { state with line := state.line + k, context := state.context.shift k }

theorem State.advance_shift (k : Nat) (state : State) (next : Step) :
    (state.shift k).advance (Context.shiftStep k next) = (state.advance next).shift k := by
  simp only [advance, shift, Context.shiftStep, Nat.add_right_comm]

/-- **A run that starts further down** gives the same, further down. -/
theorem run_shift (k : Nat) (state : State) : run (state.shift k) = shiftResult k (run state) := by
  induction hn : state.rest.length using Nat.strongRecOn generalizing state with
  | _ n ih =>
    have hstep : (state.shift k).step
        = (state.step.map (Context.shiftStep k)).mapError (LexError.shift k) :=
      Context.step_shift k state.line state.previous state.rest state.context
    by_cases hne : state.rest = []
    · rw [run_of_nil hne, run_of_nil (show (state.shift k).rest = [] from hne)]
      rw [show (state.shift k).context.finish = _ from Context.finish_shift k state.context]
      cases state.context.finish <;> rfl
    · have hne' : (state.shift k).rest ≠ [] := hne
      cases hs : state.step with
      | error error =>
        rw [hs] at hstep
        rw [run_of_error hne hs, run_of_error hne' hstep]
        rfl
      | ok next =>
        rw [hs] at hstep
        have hlt := State.rest_lt_of_step hne hs
        rw [run_of_step hne hs, run_of_step hne' hstep, State.advance_shift,
          ih _ (hn ▸ hlt) (state.advance next) rfl]
        cases run (state.advance next) with
        | error => rfl
        | ok tokens =>
          simp only [shiftResult, Except.map, List.map_append]
          rw [← Token.place_shift]
          rfl

/-! ## Around the program -/

theorem State.significant_concat (previous : Option Kind) (lexemes : List Lexeme) {last : Lexeme}
    (h : last.kind.isSignificant = true) :
    significant previous (lexemes ++ [last]) = some last.kind := by
  simp [significant, h]

theorem Markup.openTag?_kind {cs rest : List Char} {tag : Lexeme}
    (h : openTag? cs = some (tag, rest)) :
    tag.kind = .tag .openEcho ∨ tag.kind = .tag .open_ := by
  unfold openTag? at h
  split at h
  · cases h
    exact .inl rfl
  · split at h
    · cases h
    · cases h
      exact .inr rfl
    · split at h
      · cases h
        exact .inr rfl
      · cases h

/-- What comes last before a text around the program does not matter to it. -/
theorem run_html_previous (cs : List Char) (line : Nat) (before before' : Option Kind) :
    run ⟨cs, line, before, .html⟩ = run ⟨cs, line, before', .html⟩ := by
  by_cases hne : cs = []
  · subst hne
    have hnil : ∀ before, run ⟨[], line, before, .html⟩ = .ok [] := fun _ => run_of_nil rfl
    rw [hnil before, hnil before']
  · have hrun : ∀ before, run ⟨cs, line, before, .html⟩
        = (run ⟨(Context.stepHtml cs).rest, line + newlines (Lexeme.spell (Context.stepHtml cs).lexemes),
            State.significant before (Context.stepHtml cs).lexemes, (Context.stepHtml cs).context⟩).map
          (Token.place line (Context.stepHtml cs).lexemes ++ ·) :=
      fun _ => run_of_step hne rfl
    have hsame : State.significant before (Context.stepHtml cs).lexemes
        = State.significant before' (Context.stepHtml cs).lexemes := by
      unfold Context.stepHtml
      split
      · next tag rest htag =>
        have htag : tag.kind.isSignificant = true := by
          rcases Markup.openTag?_kind htag with hkind | hkind <;> rw [hkind] <;> rfl
        rw [State.significant_concat before _ htag, State.significant_concat before' _ htag]
      · rfl
    rw [hrun before, hrun before', hsame]

/-! ## Up to the closing tag -/

/-- A step of a text with more behind it. -/
def Step.extend (after : List Char) (step : Step) : Step :=
  { step with rest := step.rest ++ after }

namespace Context

/-- No halt has been read. -/
def Running : Context → Prop
  | .html | .code => True
  | .halting | .data => False
  | .body _ _ _ outer => outer.Running
  | .hole _ _ outer => outer.Running

theorem Running.afterLexeme {context : Context} (h : context.Running) {last : Lexeme}
    (hlast : last.kind ≠ .haltCompiler) : (context.afterLexeme last).Running := by
  cases context with
  | code => simp [Context.afterLexeme, hlast, Running]
  | halting => cases h
  | hole depth opened outer =>
    simp only [Context.afterLexeme]
    split
    · exact h
    · split
      · split <;> exact h
      · exact h
  | html => exact h
  | data => exact h
  | body => exact h

theorem Running.afterTag {context next : Context} (h : context.Running)
    (ha : context.afterTag = .ok next) : next = .html := by
  cases context with
  | halting => cases h
  | hole => cases ha
  | html => cases ha; rfl
  | code => cases ha; rfl
  | data => cases ha; rfl
  | body => cases ha; rfl

theorem Running.step {context : Context} (h : context.Running) {line : Nat}
    {previous : Option Kind} {cs : List Char} {next : Step}
    (hs : context.step line previous cs = .ok next)
    (hhalt : ∀ lexeme ∈ next.lexemes, lexeme.kind ≠ .haltCompiler) : next.context.Running := by
  have hcode : context.stepCode line previous cs = .ok next → next.context.Running := by
    intro hs
    obtain ⟨scan, after, -, hafter, rfl⟩ := exists_scan_of_stepCode hs
    obtain ⟨-, htag⟩ | ⟨closer, -, rfl⟩ | ⟨-, last, hlast, rfl⟩ | ⟨-, rfl⟩ :=
      afterScan_cases hafter
    · rw [h.afterTag htag]
      trivial
    · exact h
    · exact h.afterLexeme (hhalt last (List.mem_of_getLast? hlast))
    · exact h
  cases context with
  | html =>
    cases hs
    unfold stepHtml
    split <;> trivial
  | data => cases h
  | code => exact hcode hs
  | halting => exact hcode hs
  | hole => exact hcode hs
  | body closer opened fresh outer =>
    obtain ⟨text, event, -, rfl⟩ := exists_seek_of_stepBody hs
    cases event <;> exact h

theorem stepCode_append_right {context : Context} {line : Nat} {previous : Option Kind}
    {cs : List Char} {next : Step} (h : Sealed cs)
    (hs : context.stepCode line previous cs = .ok next) (after : List Char) :
    context.stepCode line previous (cs ++ after) = .ok (next.extend after) := by
  unfold stepCode at hs ⊢
  cases hscan : Code.scan previous cs with
  | error => simp [hscan] at hs
  | ok scan =>
    rw [Code.scan_append_right h hscan]
    simp only [hscan] at hs
    have hafter : context.afterScan line (scan.extend after) = context.afterScan line scan := rfl
    dsimp only
    rw [hafter]
    cases hc : context.afterScan line scan with
    | error => simp [hc] at hs
    | ok context' =>
      simp only [hc, Except.ok.injEq] at hs ⊢
      subst hs
      rfl

theorem stepHtml_append_right {cs : List Char} (h : Sealed cs) (hs : (stepHtml cs).context = .code)
    (after : List Char) : stepHtml (cs ++ after) = (stepHtml cs).extend after := by
  have hstop : ∀ rest, rest <:+ cs → rest ≠ [] →
      Markup.opens (rest ++ after) = Markup.opens rest := by
    intro rest hr hne
    rw [Markup.opens, Markup.opens,
      Markup.openTag?_append_right (h.newline_mem_of_suffix hr hne), Option.isSome_map]
  unfold stepHtml at hs ⊢
  cases ht : Markup.openTag? (onward Markup.opens cs) with
  | none => simp [ht] at hs
  | some found =>
    obtain ⟨tag, rest⟩ := found
    have hne : onward Markup.opens cs ≠ [] := by
      intro hnil
      rw [hnil] at ht
      cases ht
    have hsuffix : onward Markup.opens cs <:+ cs := ⟨_, before_append_onward _ _⟩
    obtain ⟨hbefore, honward⟩ := before_append_right after hstop hne
    rw [hbefore, honward, Markup.openTag?_append_right (h.newline_mem_of_suffix hsuffix hne), ht]
    rfl

/-- Text around the program ends with an opening tag, or with the source. -/
theorem stepHtml_cases (cs : List Char) :
    (stepHtml cs).context = .code ∨ (stepHtml cs).rest = [] := by
  unfold stepHtml
  split
  · exact .inl rfl
  · exact .inr rfl

theorem stepBody_append_right {closer : Closer} (hn : closer.Named) {opened line : Nat}
    {fresh : Bool} {outer : Context} {cs : List Char} {next : Step} (h : Sealed cs)
    (hs : stepBody closer opened fresh outer line cs = .ok next) (after : List Char) :
    stepBody closer opened fresh outer line (cs ++ after) = .ok (next.extend after) := by
  unfold stepBody at hs ⊢
  cases hseek : Body.seek closer fresh cs with
  | none => simp [hseek] at hs
  | some found =>
    obtain ⟨text, event⟩ := found
    rw [Body.seek_append_right hn (fun rest => h.newline_mem_of_suffix) hseek]
    simp only [hseek, Except.ok.injEq] at hs
    subst hs
    cases event <;> rfl

/-- A step on a sealed text stays what it is when more follows, unless it is the last: text around
the program that runs to the end goes on with what follows. -/
theorem step_append_right {context : Context} (hn : context.Named) (hr : context.Running)
    {line : Nat} {previous : Option Kind} {cs : List Char} {next : Step} (h : Sealed cs)
    (hs : context.step line previous cs = .ok next)
    (hhtml : context = .html → next.context = .code) (after : List Char) :
    context.step line previous (cs ++ after) = .ok (next.extend after) := by
  cases context with
  | html =>
    cases hs
    exact congrArg Except.ok (stepHtml_append_right h (hhtml rfl) after)
  | data => cases hr
  | code => exact stepCode_append_right h hs after
  | halting => cases hr
  | hole => exact stepCode_append_right h hs after
  | body => exact stepBody_append_right hn.1 h hs after

/-- A step whose last lexeme is a closing tag has read nothing else, and is out of the program. -/
theorem step_of_closeTag {context : Context} (hr : context.Running) {line : Nat}
    {previous : Option Kind} {cs : List Char} {next : Step} (hne : cs ≠ [])
    (hs : context.step line previous cs = .ok next) {tag : Lexeme}
    (hlast : next.lexemes.getLast? = some tag) (hkind : tag.kind = .tag .close) :
    context ≠ .html ∧ next.lexemes = [tag] ∧ next.context = .html := by
  have hmem : tag ∈ next.lexemes := List.mem_of_getLast? hlast
  have hout : tag.kind.isInside = false := by rw [hkind]; rfl
  have hcode : context.stepCode line previous cs = .ok next →
      next.lexemes = [tag] ∧ next.context = .html := by
    intro hs
    obtain ⟨scan, after, hscan, hafter, rfl⟩ := exists_scan_of_stepCode hs
    rcases Code.scan_inside_or_leaves hne hscan with hin | ⟨hturn, text, hlexemes⟩
    · have := hin.lexemes tag hmem
      rw [hout] at this
      cases this
    · simp only [hlexemes, List.getLast?_singleton, Option.some.injEq] at hlast ⊢
      rw [Context.afterScan, hturn] at hafter
      exact ⟨by rw [hlast], hr.afterTag hafter⟩
  cases context with
  | html =>
    cases hs
    exfalso
    unfold stepHtml at hlast
    split at hlast
    · next found rest htag =>
      rw [List.getLast?_concat, Option.some.injEq] at hlast
      subst hlast
      rcases Markup.openTag?_kind htag with hopen | hopen <;> rw [hopen] at hkind <;> cases hkind
    · cases hlast
      cases hkind
  | data => cases hr
  | code => exact ⟨by simp, hcode hs⟩
  | halting => cases hr
  | hole => exact ⟨by simp, hcode hs⟩
  | body closer opened fresh outer =>
    exfalso
    simp only [Context.step, stepBody] at hs
    split at hs
    · cases hs
    · next text event hseek =>
      cases hs
      have hin : tag.kind.isInside = true := by
        rcases List.mem_append.1 hmem with hmem | hmem
        · exact isInside_of_mem_ofText rfl text tag hmem
        · exact Body.seek_isInside hseek tag hmem
      rw [hout] at hin
      cases hin

end Context

/-- The reader with more text behind what is left. -/
def State.extend (after : List Char) (state : State) : State :=
  { state with rest := state.rest ++ after }

theorem run_extend_of_step {state : State} (hne : state.rest ≠ []) {next : Step}
    {after : List Char} (h : (state.extend after).step = .ok (next.extend after)) :
    run (state.extend after)
      = (run ((state.advance next).extend after)).map (Token.place state.line next.lexemes ++ ·) :=
  run_of_step (List.append_ne_nil_of_left_ne_nil hne after) h

/-- What is left to a reading ends with the text of its last lexeme. -/
theorem Reads.sealed {state : State} {lexemes : List Lexeme} (h : Reads state lexemes)
    (hlast : lexemes.getLast? = some ⟨.tag .close, closing⟩) : Sealed state.rest := by
  obtain ⟨front, rfl⟩ := List.getLast?_eq_some_iff.1 hlast
  refine ⟨Lexeme.spell front, ?_⟩
  rw [← h.spell_eq, Lexeme.spell_append]
  rfl

/-- A reading that ends with a closing tag and its newline goes on with what is appended, from the
text around the program. -/
theorem Reads.run_append {state : State} {lexemes : List Lexeme} (h : Reads state lexemes)
    (hnamed : state.context.Named) (hrunning : state.context.Running)
    (hhalt : ∀ lexeme ∈ lexemes, lexeme.kind ≠ .haltCompiler)
    (hlast : lexemes.getLast? = some ⟨.tag .close, closing⟩) (after : List Char) :
    run (state.extend after)
      = (run ⟨after, state.line + newlines state.rest, some (.tag .close), .html⟩).map
          (Token.place state.line lexemes ++ ·) := by
  induction h with
  | done => cases hlast
  | @step state next more hne hstep hreads ih =>
    have hsealed := (Reads.step hne hstep hreads).sealed hlast
    have hcovers := Context.step_covers hne hstep
    by_cases hmore : more = []
    · -- the closing tag itself
      subst hmore
      rw [List.append_nil] at hlast ⊢
      obtain ⟨hhtml, hlexemes, hcontext⟩ :=
        Context.step_of_closeTag hrunning hne hstep hlast rfl
      have hrest : next.rest = [] := hreads.spell_eq.symm
      have htext : state.rest = closing := by
        rw [← hcovers.spelled, hlexemes, hrest]
        rfl
      rw [run_extend_of_step hne (Context.step_append_right hnamed hrunning hsealed hstep
        (fun heq => absurd heq hhtml) after)]
      simp only [State.extend, State.advance, hrest, hlexemes, hcontext, htext, List.nil_append]
      rfl
    · obtain ⟨last, hlast'⟩ := Option.ne_none_iff_exists'.1 (mt List.getLast?_eq_none_iff.1 hmore)
      rw [List.getLast?_append, hlast', Option.some_or] at hlast
      rw [hlast] at hlast'
      have hleft := (hreads.sealed hlast').ne_nil
      have hhtml : state.context = .html → next.context = .code := by
        intro hhtml
        rw [State.step, hhtml] at hstep
        cases hstep
        exact (Context.stepHtml_cases state.rest).resolve_right hleft
      have hafter := ih (Context.step_formed hnamed hne hstep).1
        (hrunning.step hstep fun lexeme hmem => hhalt lexeme (List.mem_append_left _ hmem))
        (fun lexeme hmem => hhalt lexeme (List.mem_append_right _ hmem)) hlast'
      rw [run_extend_of_step hne
        (Context.step_append_right hnamed hrunning hsealed hstep hhtml after), hafter,
        Token.place_append, ← hcovers.spelled, newlines_append, ← Nat.add_assoc]
      simp only [State.advance]
      cases run _ with
      | error => rfl
      | ok tokens => simp only [Except.map, List.append_assoc]

end Lexer

/-- **A source behind a closed one is read as if it stood alone**: if the first ends with a closing
tag and its newline, and no halt has been read, then the tokens of both together are those of the
first and then those of the second, further down, and an error is that of the second, further
down. -/
theorem tokenize_append_of_closed {source : String} {tokens : List Token}
    (h : tokenize source = .ok tokens) {last : Token} (hlast : tokens.getLast? = some last)
    (hclose : last.kind = .tag .close ∧ last.text = "?>\n")
    (hhalt : ∀ token ∈ tokens, token.kind ≠ .haltCompiler) (behind : String) :
    tokenize (source ++ behind)
      = match tokenize behind with
        | .ok more => .ok (tokens ++ more.map (Token.shift (newlines source.toList)))
        | .error error => .error (error.shift (newlines source.toList)) := by
  obtain ⟨lexemes, hreads, rfl⟩ := Lexer.reads_of_tokenize h
  have hplace := Token.map_lexeme_place 1 lexemes
  have hlexeme : lexemes.getLast? = some ⟨.tag .close, closing⟩ := by
    rw [← hplace, List.getLast?_map, hlast, Option.map_some, Token.lexeme, hclose.1, hclose.2]
    rfl
  have hkinds : ∀ lexeme ∈ lexemes, lexeme.kind ≠ .haltCompiler := by
    intro lexeme hmem
    rw [← hplace] at hmem
    obtain ⟨token, htoken, rfl⟩ := List.mem_map.1 hmem
    exact hhalt token htoken
  have hstart : Lexer.State.start (source ++ behind).toList
      = (Lexer.State.start source.toList).extend behind.toList := by
    simp [Lexer.State.start, Lexer.State.extend]
  have hbehind : Lexer.run ⟨behind.toList, 1 + newlines source.toList, some (.tag .close), .html⟩
      = Lexer.shiftResult (newlines source.toList) (tokenize behind) := by
    rw [Lexer.run_html_previous _ _ _ none, tokenize, ← Lexer.run_shift]
    rfl
  have hrun := hreads.run_append trivial trivial hkinds hlexeme behind.toList
  rw [tokenize, hstart, hrun]
  rw [show (Lexer.State.start source.toList).rest = source.toList from rfl,
    show (Lexer.State.start source.toList).line = 1 from rfl, hbehind]
  cases tokenize behind <;> rfl

/-- A closed source before one that fails, and before one that is read. -/
theorem tokenize_append_of_closed_echo :
    (∃ tokens last, tokenize "<?= 1 ?>\n" = .ok tokens ∧ tokens.getLast? = some last
        ∧ last.text = "?>\n")
      ∧ tokenize ("<?= 1 ?>\n" ++ "a\n<?php '") = .error ⟨.string, 3⟩
      ∧ tokenize ("<?= 1 ?>\n" ++ "<?= 2") = .ok
        [⟨.tag .openEcho, "<?=", 1⟩, ⟨.whitespace, " ", 1⟩, ⟨.int, "1", 1⟩, ⟨.whitespace, " ", 1⟩,
          ⟨.tag .close, "?>\n", 1⟩, ⟨.tag .openEcho, "<?=", 2⟩, ⟨.whitespace, " ", 2⟩,
          ⟨.int, "2", 2⟩] := by
  have h : (tokenize "<?= 1 ?>\n").toOption = some
      [⟨.tag .openEcho, "<?=", 1⟩, ⟨.whitespace, " ", 1⟩, ⟨.int, "1", 1⟩, ⟨.whitespace, " ", 1⟩,
        ⟨.tag .close, "?>\n", 1⟩] := by decide +kernel
  have h := Lexer.tokenize_of_toOption h
  have hbehind := tokenize_append_of_closed h rfl ⟨rfl, rfl⟩ (by decide)
  have hfails : tokenize "a\n<?php '" = .error ⟨.string, 2⟩ :=
    Lexer.tokenize_of_error (by decide +kernel)
  have hreads : (tokenize "<?= 2").toOption = some
      [⟨.tag .openEcho, "<?=", 1⟩, ⟨.whitespace, " ", 1⟩, ⟨.int, "2", 1⟩] := by decide +kernel
  refine ⟨⟨_, _, h, rfl, rfl⟩, ?_, ?_⟩
  · rw [hbehind, hfails]
    rfl
  · rw [hbehind, Lexer.tokenize_of_toOption hreads]
    rfl

end Listing
