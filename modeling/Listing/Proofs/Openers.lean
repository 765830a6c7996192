import Listing.Proofs.Joined

/-!
# Where an error points

Reading fails when something is left open, and the error says what and on which line. There is such
an opening mark in the source, on that line (`LexError.PointsInto`): `Unterminated.OpensAt` says
what stands there, and for the constructs that are read in one go that no closing mark follows.

An error can come long after its opening mark. The rules of program text fail right where the mark
stands, or enter a body there (`Code.scan_opens`); from then on the contexts remember the line, and
that there was a mark on it is what a step keeps (`Context.Anchored`). Bodies and holes nest, so
this is said of every level: a level that is closed gives way to the one around it, with a line of
its own.
-/

namespace Listing

open Text

/-! ## Opening marks -/

/-- The end of a text that is reached from its beginning by steps of one character, where a
backslash takes the character after it along. -/
inductive Text.Reaches : List Char → List Char → Prop
  | here {cs : List Char} : Reaches cs cs
  | pair {c : Char} {cs rest : List Char} : Reaches cs rest → Reaches ('\\' :: c :: cs) rest
  | char {c : Char} {cs rest : List Char} : c ≠ '\\' → Reaches cs rest → Reaches (c :: cs) rest

namespace Lexer.Heredoc

/-- The text is an opening line, with a label between quotes or bare, and what follows it. -/
structure Opens (label : Label) (quotes body cs : List Char) : Prop where
  isName : label.IsName
  quoted : quotes = [] ∨ quotes = [Quoted.double] ∨ quotes = [Quoted.single]
  spelled : ∃ blanks, (∀ c ∈ blanks, isBlank c = true)
    ∧ cs = '<' :: '<' :: '<' :: (blanks ++ (quotes ++ (label.chars ++ (quotes ++ '\n' :: body))))

/-- The line begins with the label, indented or not, and the name ends there. -/
def Closes (label : Label) (line : List Char) : Prop :=
  ∃ blanks rest, (∀ c ∈ blanks, isBlank c = true) ∧ line = blanks ++ (label.chars ++ rest)
    ∧ headIs isNameChar rest = false

/-- No line of the text closes the label. -/
def StaysOpen (label : Label) (body : List Char) : Prop :=
  ∀ front line, front ++ line = body → front = [] ∨ front.getLast? = some '\n' →
    ¬Closes label line

end Lexer.Heredoc

/-- The text begins with a mark that opens the construct. A comment, a string in single quotes and a
nowdoc are not closed in what follows it. -/
def Unterminated.OpensAt : Unterminated → List Char → Prop
  | .comment, cs => ∃ inside, cs = '/' :: '*' :: inside ∧ ¬['*', '/'] <:+: inside
  | .string, cs => ∃ quote inside, cs = quote :: inside
      ∧ (quote = Lexer.Quoted.single ∨ quote = Lexer.Quoted.double ∨ quote = Lexer.Quoted.back)
      ∧ (quote = Lexer.Quoted.single → ∀ rest, Reaches inside rest →
          rest.head? ≠ some Lexer.Quoted.single)
  | .heredoc name, cs => ∃ label quotes body, Lexer.Heredoc.Opens label quotes body cs
      ∧ name = String.ofList label.chars
      ∧ (quotes = [Lexer.Quoted.single] → Lexer.Heredoc.StaysOpen label body)
  | .interpolation, cs => ∃ inside, cs = '\x7b' :: '$' :: inside ∨ cs = '$' :: '\x7b' :: inside

/-- The source has, on the line that the error names, a mark that opens the construct. -/
def LexError.PointsInto (source : List Char) (error : LexError) : Prop :=
  ∃ before opener, source = before ++ opener ∧ error.line = 1 + newlines before
    ∧ error.construct.OpensAt opener

/-- The construct opens a little further on the same line. -/
def Unterminated.OpensSoon (construct : Unterminated) (cs : List Char) : Prop :=
  ∃ lead opener, cs = lead ++ opener ∧ newlines lead = 0 ∧ construct.OpensAt opener

theorem Unterminated.OpensAt.soon {construct : Unterminated} {cs : List Char}
    (h : construct.OpensAt cs) : construct.OpensSoon cs :=
  ⟨[], cs, rfl, rfl, h⟩

theorem Unterminated.OpensSoon.pointsInto {construct : Unterminated} {cs : List Char}
    (h : construct.OpensSoon cs) (consumed : List Char) :
    LexError.PointsInto (consumed ++ cs) ⟨construct, 1 + newlines consumed⟩ := by
  obtain ⟨lead, opener, rfl, hlead, hopener⟩ := h
  refine ⟨consumed ++ lead, opener, (List.append_assoc ..).symm, ?_, hopener⟩
  rw [newlines_append, hlead, Nat.add_zero]

namespace Lexer

/-! ## The rules -/

/-- What an answer of a rule leaves open: the construct it fails on, or the body it enters. -/
def leftOpen? : Except Unterminated Scan → Option Unterminated
  | .error construct => some construct
  | .ok scan =>
    match scan.turn with
    | .enter closer => some closer.unterminated
    | _ => none

/-- What the rule leaves open begins where the rule reads. -/
def Rule.Opens (rule : Rule) : Prop :=
  ∀ previous cs answer construct, rule previous cs = some answer →
    leftOpen? answer = some construct → construct.OpensSoon cs

namespace Trivia

theorem not_infix_of_onward {cs : List Char}
    (h : strip? ['*', '/'] (onward closesBlock cs) = none) : ¬['*', '/'] <:+: cs := by
  have hend : onward closesBlock cs = [] :=
    (onward_eq_nil_or closesBlock cs).resolve_right (by simp [closesBlock, h])
  rintro ⟨front, rest, rfl⟩
  have hbefore := before_eq_self hend
  have hstop : closesBlock (['*', '/'] ++ rest) = false := by
    have := stop_before (front ++ ['*', '/'] ++ rest) (k := front.length)
      (by rw [hbefore]; simp)
    rw [hbefore, hend] at this
    simpa using this
  rw [closesBlock, strip?_append] at hstop
  cases hstop

theorem blockComment_opens : Rule.Opens blockComment := by
  intro previous cs answer construct h hopen
  unfold blockComment at h
  split at h
  · cases h
  · next inside hinside =>
    split at h
    · next hclose =>
      cases h
      cases hopen
      exact Unterminated.OpensAt.soon
        ⟨inside, (strip?_eq_some hinside).symm, not_infix_of_onward hclose⟩
    · cases h
      cases hopen

end Trivia

namespace Quoted

theorem head?_ne_of_closingQuote? {quote : Char} (hq : quote ≠ '\\') {cs rest : List Char}
    (hr : Reaches cs rest) (h : closingQuote? quote cs = none) : rest.head? ≠ some quote := by
  induction hr with
  | @here cs =>
    cases cs with
    | nil => nofun
    | cons c cs =>
      intro hc
      cases hc
      rw [closingQuote?_cons_of_ne hq, if_pos rfl] at h
      cases h
  | pair _ ih =>
    simp only [closingQuote?, if_true, Option.map_eq_none_iff] at h
    exact ih h
  | @char c cs rest hb _ ih =>
    rw [closingQuote?_cons_of_ne hb] at h
    split at h
    · cases h
    · exact ih (Option.map_eq_none_iff.1 h)

/-- The quote of a string stands at its beginning, or behind the letter of a binary string. -/
theorem opensSoon_of_opening? {quote : Char} {cs opening inside : List Char}
    (h : opening? quote cs = some (opening, inside))
    (hq : Unterminated.string.OpensAt (quote :: inside)) : Unterminated.string.OpensSoon cs := by
  obtain ⟨mark, hmark, rfl⟩ := opening?_shape h
  refine ⟨mark, quote :: inside, ?_, ?_, hq⟩
  · rw [← (opening?_append h).1, List.append_assoc]
    rfl
  · rcases hmark with rfl | rfl | rfl <;> rfl

theorem singleQuoted_opens : Rule.Opens singleQuoted := by
  intro previous cs answer construct h hopen
  unfold singleQuoted at h
  split at h
  · cases h
  · next opening inside hopening =>
    split at h
    · next hclose =>
      cases h
      cases hopen
      refine opensSoon_of_opening? hopening ⟨single, inside, rfl, .inl rfl, ?_⟩
      exact fun _ rest hr => head?_ne_of_closingQuote? (by decide) hr hclose
    · cases h
      cases hopen

theorem doubleQuoted_opens : Rule.Opens doubleQuoted := by
  intro previous cs answer construct h hopen
  unfold doubleQuoted at h
  split at h
  · cases h
  · next opening inside hopening =>
    have hstring : Unterminated.string.OpensSoon cs :=
      opensSoon_of_opening? hopening
        ⟨double, inside, rfl, .inr (.inl rfl), fun hq => absurd hq (by decide)⟩
    split at h
    · cases h
      cases hopen
      exact hstring
    · split at h
      · cases h
        cases hopen
        exact hstring
      · cases h
        cases hopen

theorem backQuoted_opens : Rule.Opens backQuoted := by
  intro previous cs answer construct h hopen
  unfold backQuoted at h
  split at h
  · cases h
  · next inside hinside =>
    cases h
    cases hopen
    exact Unterminated.OpensAt.soon ⟨back, inside, (strip?_eq_some hinside).symm,
      .inr (.inr rfl), fun hq => absurd hq (by decide)⟩

end Quoted

namespace Heredoc

theorem labelLine?_spelled {quotes cs text rest : List Char} {label : Label}
    (h : labelLine? quotes cs = some (label, text, rest)) :
    cs = quotes ++ (label.chars ++ (quotes ++ '\n' :: rest)) := by
  have hcut := labelLine?_append h
  unfold labelLine? at h
  split at h
  · split at h
    · obtain ⟨after, -, he⟩ := Option.map_eq_some_iff.1 h
      cases he
      rw [← hcut]
      simp [Label.chars]
    · cases h
  · cases h

theorem header?_opens {cs : List Char} {header : Header} (h : header? cs = some header) :
    ∃ quotes, Opens header.label quotes header.rest cs
      ∧ (quotes = [Quoted.single] → header.raw = true) := by
  have hname := header?_isName h
  unfold header? at h
  split at h
  · cases h
  · next after hafter =>
    have hlead := strip?_eq_some hafter
    have hspelled : ∀ {quotes text rest : List Char} {label : Label},
        labelLine? quotes (after.dropWhile isBlank) = some (label, text, rest) →
        ∃ blanks, (∀ c ∈ blanks, isBlank c = true) ∧ cs = '<' :: '<' :: '<' ::
          (blanks ++ (quotes ++ (label.chars ++ (quotes ++ '\n' :: rest)))) := by
      intro quotes text rest label hl
      refine ⟨after.takeWhile isBlank, List.all_eq_true.1 List.all_takeWhile, ?_⟩
      rw [← labelLine?_spelled hl, List.takeWhile_append_dropWhile, ← hlead]
      rfl
    dsimp only at h
    split at h
    · next hl =>
      cases h
      exact ⟨[Quoted.single], ⟨hname, .inr (.inr rfl), hspelled hl⟩, fun _ => rfl⟩
    · split at h
      · next hl =>
        cases h
        exact ⟨[Quoted.double], ⟨hname, .inr (.inl rfl), hspelled hl⟩,
          fun hq => absurd hq (by decide)⟩
      · split at h
        · next hl =>
          cases h
          exact ⟨[], ⟨hname, .inl rfl, hspelled hl⟩, nofun⟩
        · cases h

theorem closeAt?_isSome_of_closes {label : Label} (hl : label.IsName) {line : List Char}
    (h : Closes label line) : (closeAt? label line).isSome = true := by
  obtain ⟨blanks, rest, hblanks, rfl, hend⟩ := h
  rw [closeAt?, hl.dropWhile_isBlank hblanks, strip?_append]
  simp [hend]

theorem closeAt?_of_untilClose? {label : Label} {fresh : Bool} {cs body line : List Char}
    (h : untilClose? label fresh cs = some (body, line)) : (closeAt? label line).isSome = true := by
  induction cs generalizing fresh body with
  | nil => cases h
  | cons c cs ih =>
    rw [untilClose?] at h
    split at h
    · next hclose =>
      cases h
      exact (Bool.and_eq_true_iff.1 hclose).2
    · obtain ⟨found, hf, he⟩ := Option.map_eq_some_iff.1 h
      cases he
      exact ih hf

/-- Where no line is found to close a label, none does. -/
theorem closeAt?_eq_none_of_untilClose? {label : Label} {fresh : Bool} {front line : List Char}
    (h : untilClose? label fresh (front ++ line) = none)
    (hline : front = [] ∧ fresh = true ∨ front.getLast? = some '\n') :
    closeAt? label line = none := by
  induction front generalizing fresh with
  | nil =>
    rcases hline with ⟨-, rfl⟩ | hnone
    · cases line with
      | nil => rfl
      | cons c cs =>
        rw [List.nil_append, untilClose?] at h
        split at h
        · cases h
        · next hclose => simpa using hclose
    · cases hnone
  | cons c front ih =>
    rw [List.cons_append, untilClose?] at h
    split at h
    · cases h
    · refine ih (Option.map_eq_none_iff.1 h) ?_
      rcases hline with ⟨hnil, -⟩ | hlast
      · cases hnil
      · cases front with
        | nil =>
          cases hlast
          exact .inl ⟨rfl, rfl⟩
        | cons d front => exact .inr (by simpa using hlast)

theorem staysOpen_of_untilClose? {label : Label} (hl : label.IsName) {body : List Char}
    (h : untilClose? label true body = none) : StaysOpen label body := by
  rintro front line rfl hline hcloses
  have hnone := closeAt?_eq_none_of_untilClose? h (hline.imp_left fun hfront => ⟨hfront, rfl⟩)
  have hsome := closeAt?_isSome_of_closes hl hcloses
  rw [hnone] at hsome
  cases hsome

theorem rule_opens : Rule.Opens rule := by
  intro previous cs answer construct h hopen
  unfold rule at h
  split at h
  · cases h
  · next header hheader =>
    obtain ⟨quotes, hopens, hraw⟩ := header?_opens hheader
    split at h
    · split at h
      · next huntil =>
        cases h
        cases hopen
        exact Unterminated.OpensAt.soon ⟨header.label, quotes, header.rest, hopens, rfl,
          fun _ => staysOpen_of_untilClose? hopens.isName huntil⟩
      · next huntil =>
        -- The line that was found closes the label, so the error behind it is never reached.
        have hclose := closeAt?_of_untilClose? huntil
        split at h
        · next hnone =>
          rw [hnone] at hclose
          cases hclose
        · cases h
          cases hopen
    · next hnot =>
      cases h
      cases hopen
      exact Unterminated.OpensAt.soon ⟨header.label, quotes, header.rest, hopens, rfl,
        fun hq => absurd (hraw hq) hnot⟩

end Heredoc

namespace Code

/-- The rules that never fail and enter no body. -/
def closedRules : List Rule :=
  [Sign.cast, Trivia.spaces, Trivia.closeTag, Sign.attribute_, Trivia.lineComment, Sign.variable_,
   Number.rule, Sign.separator, Word.rule, Sign.operator, Sign.character]

theorem leftOpen?_of_mem_closedRules {rule : Rule} (h : rule ∈ closedRules)
    {previous : Option Kind} {cs : List Char} {answer : Except Unterminated Scan}
    (hr : rule previous cs = some answer) : leftOpen? answer = none := by
  simp only [closedRules, List.mem_cons, List.not_mem_nil, or_false] at h
  rcases h with rfl | rfl | rfl | rfl | rfl | rfl | rfl | rfl | rfl | rfl | rfl
  all_goals
    simp only [Sign.cast, Trivia.spaces, Trivia.closeTag, Sign.attribute_, Trivia.lineComment,
      Sign.variable_, Number.rule, Sign.separator, Word.rule, Sign.operator, Sign.character] at hr
    repeat' split at hr
    all_goals cases hr <;> rfl

theorem opens_of_mem_closedRules {rule : Rule} (h : rule ∈ closedRules) : Rule.Opens rule := by
  intro previous cs answer construct hr hopen
  rw [leftOpen?_of_mem_closedRules h hr] at hopen
  cases hopen

theorem rules_open : ∀ rule ∈ rules, Rule.Opens rule := by
  intro rule h
  simp only [rules, List.mem_cons, List.not_mem_nil, or_false] at h
  rcases h with rfl | rfl | rfl | rfl | rfl | rfl | rfl | rfl | rfl | rfl | rfl | rfl | rfl | rfl
    | rfl | rfl
  · exact Heredoc.rule_opens
  · exact opens_of_mem_closedRules (by simp [closedRules])
  · exact opens_of_mem_closedRules (by simp [closedRules])
  · exact opens_of_mem_closedRules (by simp [closedRules])
  · exact opens_of_mem_closedRules (by simp [closedRules])
  · exact opens_of_mem_closedRules (by simp [closedRules])
  · exact Trivia.blockComment_opens
  · exact opens_of_mem_closedRules (by simp [closedRules])
  · exact Quoted.singleQuoted_opens
  · exact Quoted.doubleQuoted_opens
  · exact Quoted.backQuoted_opens
  all_goals exact opens_of_mem_closedRules (by simp [closedRules])

/-- What a scan of program text leaves open begins where the scan does. -/
theorem scan_opens {previous : Option Kind} {cs : List Char} {construct : Unterminated}
    (hne : cs ≠ []) (h : leftOpen? (scan previous cs) = some construct) :
    construct.OpensSoon cs := by
  obtain ⟨rule, hmem, hr⟩ := exists_rule previous hne
  exact rules_open rule hmem previous cs _ construct hr h

end Code

theorem Body.seek_hole_opens {closer : Closer} {fresh : Bool} {cs text rest : List Char}
    {lexemes : List Lexeme} (h : seek closer fresh cs = some (text, .hole lexemes rest)) :
    ∃ onward, cs = text ++ onward ∧ Unterminated.interpolation.OpensAt onward := by
  obtain ⟨onward, fresh', rfl, he⟩ := exists_onward_of_seek h
  refine ⟨onward, rfl, ?_⟩
  rcases interpolation?_cases (interpolation?_of_event? he nofun)
    with ⟨d, ds, -, hevent⟩ | ⟨ds, rfl, -⟩ | ⟨ds, rfl, -⟩
  · cases hevent
  · exact ⟨ds, .inr rfl⟩
  · exact ⟨ds, .inl rfl⟩

/-! ## Contexts -/

namespace Context

/-- Each body and each hole around a place was opened on the line that it remembers. -/
def Anchored (source : List Char) : Context → Prop
  | .html | .code | .halting | .data => True
  | .body closer opened _ outer =>
    LexError.PointsInto source ⟨closer.unterminated, opened⟩ ∧ outer.Anchored source
  | .hole _ opened outer =>
    LexError.PointsInto source ⟨.interpolation, opened⟩ ∧ outer.Anchored source

theorem Anchored.finish {source : List Char} {context : Context} (h : context.Anchored source)
    {error : LexError} (he : context.finish = .error error) : error.PointsInto source := by
  cases context with
  | html | code | halting | data => cases he
  | body | hole =>
    cases he
    exact h.1

/-- An error points at an opening mark, and a context that follows is anchored. -/
def Keeps (source : List Char) : Except LexError Context → Prop
  | .error error => error.PointsInto source
  | .ok context => context.Anchored source

theorem Anchored.afterTag {source : List Char} {context : Context} (h : context.Anchored source) :
    Keeps source context.afterTag := by
  cases context with
  | html | code | halting | data | body => trivial
  | hole => exact h.1

theorem Anchored.afterLexeme {source : List Char} {context : Context}
    (h : context.Anchored source) (last : Lexeme) : (context.afterLexeme last).Anchored source := by
  unfold Context.afterLexeme
  split
  · split <;> trivial
  · split <;> trivial
  · split
    · exact h
    · split
      · split
        · exact h.2
        · exact h
      · exact h
  · exact h

theorem Anchored.afterScan {source : List Char} {context : Context} (h : context.Anchored source)
    {line : Nat} {scan : Scan} (hopen : ∀ construct, leftOpen? (.ok scan) = some construct →
      LexError.PointsInto source ⟨construct, line⟩) :
    Keeps source (context.afterScan line scan) := by
  unfold Context.afterScan
  split
  · exact h.afterTag
  · next closer hturn =>
    refine ⟨hopen _ ?_, h⟩
    rw [leftOpen?, hturn]
  · split
    · exact h.afterLexeme _
    · exact h

/-! ## What one step keeps -/

section
variable {consumed cs : List Char}

theorem stepCode_keeps {context : Context} (h : context.Anchored (consumed ++ cs))
    (previous : Option Kind) (hne : cs ≠ []) :
    Keeps (consumed ++ cs)
      ((context.stepCode (1 + newlines consumed) previous cs).map Step.context) := by
  have hopen : ∀ construct, leftOpen? (Code.scan previous cs) = some construct →
      LexError.PointsInto (consumed ++ cs) ⟨construct, 1 + newlines consumed⟩ :=
    fun construct hleft => (Code.scan_opens hne hleft).pointsInto consumed
  unfold stepCode
  cases hscan : Code.scan previous cs with
  | error construct =>
    rw [hscan] at hopen
    exact hopen construct rfl
  | ok scan =>
    rw [hscan] at hopen
    have hafter := h.afterScan hopen
    dsimp only
    split
    · next error herror =>
      rw [herror] at hafter
      exact hafter
    · next next hnext =>
      rw [hnext] at hafter
      exact hafter

theorem stepBody_keeps {closer : Closer} {opened : Nat} {fresh : Bool} {outer : Context}
    (h : (Context.body closer opened fresh outer).Anchored (consumed ++ cs)) :
    Keeps (consumed ++ cs)
      ((stepBody closer opened fresh outer (1 + newlines consumed) cs).map Step.context) := by
  unfold stepBody
  split
  · exact h.1
  · next text event hseek =>
    cases event with
    | close => exact h.2
    | splice => exact h
    | hole lexemes rest =>
      -- The brace stands behind the literal text, and its line is counted through that text.
      obtain ⟨onward, rfl, hopens⟩ := Body.seek_hole_opens hseek
      have hpoints := hopens.soon.pointsInto (consumed ++ text)
      rw [newlines_append, ← Nat.add_assoc, List.append_assoc] at hpoints
      exact ⟨hpoints, h⟩

/-- What one step keeps, in a source of which a part is read already: its error points into the
source, and the lines that the next context remembers do. -/
theorem step_keeps {context : Context} (h : context.Anchored (consumed ++ cs))
    (previous : Option Kind) (hne : cs ≠ []) :
    Keeps (consumed ++ cs)
      ((context.step (1 + newlines consumed) previous cs).map Step.context) := by
  cases context with
  | html =>
    simp only [step, stepHtml]
    split <;> trivial
  | data => trivial
  | code => exact stepCode_keeps h previous hne
  | halting => exact stepCode_keeps h previous hne
  | hole => exact stepCode_keeps h previous hne
  | body => exact stepBody_keeps h

end

end Context

/-- What a whole run keeps. -/
theorem run_points {state : State} {error : LexError} (h : run state = .error error)
    (consumed : List Char) (hline : state.line = 1 + newlines consumed)
    (hc : state.context.Anchored (consumed ++ state.rest)) :
    error.PointsInto (consumed ++ state.rest) := by
  fun_induction run state generalizing consumed with
  | case1 state hrest found hfinish =>
    cases h
    exact hc.finish hfinish
  | case2 => cases h
  | case3 state hne found hstep =>
    cases h
    have hkeeps := Context.step_keeps hc state.previous hne
    rw [← hline, ← State.step, hstep] at hkeeps
    exact hkeeps
  | case4 state hne next hstep found hrun ih =>
    cases h
    have hkeeps := Context.step_keeps hc state.previous hne
    rw [← hline, ← State.step, hstep] at hkeeps
    have hcut : consumed ++ state.rest
        = (consumed ++ Lexeme.spell next.lexemes) ++ (state.advance next).rest := by
      rw [← (Context.step_covers hne hstep).spelled, List.append_assoc]
      rfl
    rw [hcut] at hkeeps ⊢
    refine ih hrun _ ?_ hkeeps
    rw [newlines_append, ← Nat.add_assoc, ← hline]
    rfl
  | case5 => cases h

end Lexer

/-- **An error points at what was left open**: the source has, on the line that the error names, the
mark that opens the construct. -/
theorem tokenize_error_points {source : String} {error : LexError}
    (h : tokenize source = .error error) :
    ∃ before opener, source.toList = before ++ opener ∧ error.line = 1 + newlines before
      ∧ error.construct.OpensAt opener :=
  Lexer.run_points h [] rfl trivial

/-- Code in a command in code in a heredoc, each on a line of its own: a closing tag leaves the
innermost of them open. -/
theorem tokenize_error_points_nested :
    tokenize "<?php\n<<<A\n$\x7bx[\n`y\n\x7b$z\n?>" = .error ⟨.interpolation, 5⟩
      ∧ ∃ before opener, "<?php\n<<<A\n$\x7bx[\n`y\n\x7b$z\n?>".toList = before ++ opener
        ∧ 5 = 1 + newlines before ∧ Unterminated.interpolation.OpensAt opener := by
  have h : tokenize "<?php\n<<<A\n$\x7bx[\n`y\n\x7b$z\n?>" = .error ⟨.interpolation, 5⟩ :=
    Lexer.tokenize_of_error (by decide +kernel)
  exact ⟨h, tokenize_error_points h⟩

end Listing
