import Listing.Lexer.Body
import Listing.Lexer.Code
import Listing.Lexer.Markup

/-!
# Contexts

What a character means depends on where it stands. A `Context` says where: in the text around the
program, in the program, in the last statement after a halt, in the data behind it, in the body of a
string, or in a hole of code inside such a body. Bodies and holes nest, so each remembers the
context around it; both remember the line on which they were opened, for the error if they stay
open.

`Context.step` reads one piece in its context. `step_covers`: it fails or cuts at least one
character off the front.
-/

namespace Listing.Lexer

/-- Where in a source the reader stands. -/
inductive Context where
  /-- Text outside the tags. -/
  | html
  /-- The program. -/
  | code
  /-- The program after a halt, up to the end of that statement. -/
  | halting
  /-- What follows a halted program. -/
  | data
  /-- The body of a string that began on line `opened`. `fresh` says that a line begins here and was
  not reached through an interpolation. -/
  | body (closer : Closer) (opened : Nat) (fresh : Bool) (outer : Context)
  /-- Code inside a body, `depth` braces deep beyond the one that opened it on line `opened`. -/
  | hole (depth : Nat) (opened : Nat) (outer : Context)
  deriving DecidableEq, Repr

/-- What was read in one step, and the context after it. -/
structure Step where
  lexemes : List Lexeme
  rest : List Char
  context : Context

/-- The construct that a closer leaves open. -/
def Closer.unterminated : Closer → Unterminated
  | .doubleQuote | .backtick => .string
  | .label name => .heredoc (String.ofList name.chars)

namespace Context

/-- The source may end here, or what is still open. -/
def finish : Context → Except LexError Unit
  | .html | .code | .halting | .data => .ok ()
  | .body closer opened _ _ => .error ⟨closer.unterminated, opened⟩
  | .hole _ opened _ => .error ⟨.interpolation, opened⟩

/-- A closing tag was read. Code inside a string cannot leave the program. -/
def afterTag : Context → Except LexError Context
  | .hole _ opened _ => .error ⟨.interpolation, opened⟩
  | .halting => .ok .data
  | _ => .ok .html

/-- A token of code was read, with `last` as its last lexeme. -/
def afterLexeme (last : Lexeme) : Context → Context
  | .code => if last.kind = .haltCompiler then .halting else .code
  | .halting => if last.isPunct ';' then .data else .halting
  | .hole depth opened outer =>
    if last.isPunct '\x7b' then .hole (depth + 1) opened outer
    else if last.isPunct '\x7d' then
      match depth with
      | 0 => outer
      | depth + 1 => .hole depth opened outer
    else .hole depth opened outer
  | context => context

/-- The context after a scan of code that began on `line`. -/
def afterScan (context : Context) (line : Nat) (scan : Scan) : Except LexError Context :=
  match scan.turn with
  | .leave => context.afterTag
  | .enter closer => .ok (.body closer line true context)
  | .stay =>
    match scan.lexemes.getLast? with
    | some last => .ok (context.afterLexeme last)
    | none => .ok context

/-- One token of code. -/
def stepCode (context : Context) (line : Nat) (previous : Option Kind) (cs : List Char) :
    Except LexError Step :=
  match Code.scan previous cs with
  | .error construct => .error ⟨construct, line⟩
  | .ok scan =>
    match context.afterScan line scan with
    | .error error => .error error
    | .ok next => .ok ⟨scan.lexemes, scan.rest, next⟩

/-- Text up to an opening tag, and the tag. -/
def stepHtml (cs : List Char) : Step :=
  match Markup.openTag? (Text.onward Markup.opens cs) with
  | some (tag, rest) => ⟨Lexeme.ofText .html (Text.before Markup.opens cs) ++ [tag], rest, .code⟩
  | none => ⟨[⟨.html, cs⟩], [], .html⟩

/-- Literal text up to the next event in a body, and the event. -/
def stepBody (closer : Closer) (opened : Nat) (fresh : Bool) (outer : Context) (line : Nat)
    (cs : List Char) : Except LexError Step :=
  match Body.seek closer fresh cs with
  | none => .error ⟨closer.unterminated, opened⟩
  | some (text, event) =>
    let next :=
      match event with
      | .close .. => outer
      | .splice .. => .body closer opened false outer
      | .hole .. => .hole 0 (line + newlines text) (.body closer opened false outer)
    .ok ⟨Lexeme.ofText .literal text ++ event.lexemes, event.rest, next⟩

/-- One step in a context, on a text that begins on `line`; `previous` is the last kind before it
that was not whitespace or comment. -/
def step (context : Context) (line : Nat) (previous : Option Kind) (cs : List Char) :
    Except LexError Step :=
  match context with
  | .html => .ok (stepHtml cs)
  | .data => .ok ⟨[⟨.html, cs⟩], [], .data⟩
  | .code | .halting | .hole .. => stepCode context line previous cs
  | .body closer opened fresh outer => stepBody closer opened fresh outer line cs

/-! ## What a step can do -/

/-- The context after a token: a tag was read, or a body is entered, or the last lexeme decides. -/
theorem afterScan_cases {context next : Context} {line : Nat} {scan : Scan}
    (h : context.afterScan line scan = .ok next) :
    (scan.turn = .leave ∧ context.afterTag = .ok next)
      ∨ (∃ closer, scan.turn = .enter closer ∧ next = .body closer line true context)
      ∨ (scan.turn = .stay ∧ ∃ last, scan.lexemes.getLast? = some last
        ∧ next = context.afterLexeme last)
      ∨ (scan.turn = .stay ∧ next = context) := by
  unfold afterScan at h
  split at h
  · next hturn => exact .inl ⟨hturn, h⟩
  · next closer hturn =>
    cases h
    exact .inr (.inl ⟨closer, hturn, rfl⟩)
  · next hturn =>
    split at h
    · next last hlast =>
      cases h
      exact .inr (.inr (.inl ⟨hturn, last, hlast, rfl⟩))
    · cases h
      exact .inr (.inr (.inr ⟨hturn, rfl⟩))

theorem exists_scan_of_stepCode {context : Context} {line : Nat} {previous : Option Kind}
    {cs : List Char} {next : Step} (h : stepCode context line previous cs = .ok next) :
    ∃ scan after, Code.scan previous cs = .ok scan ∧ context.afterScan line scan = .ok after
      ∧ next = ⟨scan.lexemes, scan.rest, after⟩ := by
  unfold stepCode at h
  split at h
  · cases h
  · next scan hscan =>
    split at h
    · cases h
    · next after hafter =>
      cases h
      exact ⟨scan, after, hscan, hafter, rfl⟩

theorem exists_seek_of_stepBody {closer : Closer} {opened : Nat} {fresh : Bool} {outer : Context}
    {line : Nat} {cs : List Char} {next : Step}
    (h : stepBody closer opened fresh outer line cs = .ok next) :
    ∃ text event, Body.seek closer fresh cs = some (text, event)
      ∧ next = ⟨Lexeme.ofText .literal text ++ event.lexemes, event.rest,
        match event with
        | .close .. => outer
        | .splice .. => .body closer opened false outer
        | .hole .. => .hole 0 (line + newlines text) (.body closer opened false outer)⟩ := by
  unfold stepBody at h
  split at h
  · cases h
  · next text event hseek =>
    cases h
    exact ⟨text, event, hseek, rfl⟩

/-! ## Nothing is lost -/

theorem stepCode_covers {context : Context} {line : Nat} {previous : Option Kind} {cs : List Char}
    {next : Step} (hne : cs ≠ []) (h : stepCode context line previous cs = .ok next) :
    Covers next.lexemes next.rest cs := by
  obtain ⟨scan, after, hscan, -, rfl⟩ := exists_scan_of_stepCode h
  exact Code.scan_covers hne hscan

theorem stepHtml_covers {cs : List Char} (hne : cs ≠ []) :
    Covers (stepHtml cs).lexemes (stepHtml cs).rest cs := by
  unfold stepHtml
  split
  · next tag rest e =>
    simpa using Covers.append (Lexeme.ofText .html (Text.before Markup.opens cs))
      Lexeme.text_ne_nil_of_mem_ofText (Markup.openTag?_covers e)
  · exact Covers.one hne (by simp)

theorem stepBody_covers {closer : Closer} {opened : Nat} {fresh : Bool} {outer : Context}
    {line : Nat} {cs : List Char} {next : Step}
    (h : stepBody closer opened fresh outer line cs = .ok next) :
    Covers next.lexemes next.rest cs := by
  obtain ⟨text, event, hseek, rfl⟩ := exists_seek_of_stepBody h
  obtain ⟨onward, happ, hcov⟩ := Body.seek_append hseek
  simpa [happ] using Covers.append (Lexeme.ofText .literal text)
    Lexeme.text_ne_nil_of_mem_ofText hcov

/-- A step cuts the text without loss, and takes at least one character. -/
theorem step_covers {context : Context} {line : Nat} {previous : Option Kind} {cs : List Char}
    {next : Step} (hne : cs ≠ []) (h : context.step line previous cs = .ok next) :
    Covers next.lexemes next.rest cs := by
  unfold step at h
  split at h
  · simp only [Except.ok.injEq] at h
    subst h
    exact stepHtml_covers hne
  · simp only [Except.ok.injEq] at h
    subst h
    exact Covers.one hne (by simp)
  · exact stepCode_covers hne h
  · exact stepCode_covers hne h
  · exact stepCode_covers hne h
  · exact stepBody_covers h

end Context

end Listing.Lexer
