import Listing.Proofs.Shapes

/-!
# Words in their place

Some kinds of lexeme steer how the next word is read (`Kind.steers`): behind the access to a member,
a separator, `function` or `const` every word is a name, and behind `::` every word but `class`. A
lexeme fits its place (`Lexeme.Fits`) if it keeps to that, and has the kind of a reserved word only
if the table of reserved words says so.

Where code is read the rule for words sees to it. But text that is spelled like a word also stands
around the program, in strings, in their offsets and behind the labels of heredocs. There nothing
steers: the reader has come to such a place by a lexeme that does not (`Context.IsCalm`), and what
it reads there does not either (`AllFit.of_calm`), but for the arrow of a member, behind which there
is a name.
-/

namespace Listing

open Text

/-! ## Kinds that steer -/

/-- The text is a single name. -/
def Text.IsName (cs : List Char) : Prop :=
  headIs isNameStart cs = true ∧ ∀ c ∈ cs, isNameChar c = true

/-- The next word is not read as it would be by itself. -/
def Kind.steers (kind : Kind) : Bool :=
  Lexer.Word.freesWords kind || kind == .doubleColon

/-- Kinds that neither steer nor are those of reserved words. -/
def Kind.isCalm (kind : Kind) : Bool :=
  !kind.steers && !kind.isReserved

theorem Kind.isReserved_of_isSign {kind : Kind} (h : kind.isSign = true) :
    kind.isReserved = false := by
  unfold Kind.isSign at h
  split at h
  all_goals first | rfl | cases h | simpa using h

/-- The last kind that counts does not steer. -/
def Calm (previous : Option Kind) : Prop :=
  ∀ kind ∈ previous, kind.steers = false

theorem Calm.some {kind : Kind} (h : kind.isCalm = true) : Calm (some kind) := by
  intro found hfound
  cases hfound
  simpa using (Bool.and_eq_true_iff.1 h).1

/-- Behind `::` only `class` is reserved. -/
theorem Lexer.Word.kindAfter_doubleColon (word : List Char) :
    kindAfter (some .doubleColon) word
      = if lower word = "class".toList then .keyword .class_ else .name := by
  rw [kindAfter, if_neg (by decide)]
  split
  · next hclass => rw [if_neg hclass.2]
  · next hclass =>
    have hlower : lower word = "class".toList := by simpa using hclass
    rw [if_pos hlower, reserved?, hlower]
    rfl

namespace Lexeme

/-- The lexeme is read as what it is behind the last kind that counts. -/
structure Fits (previous : Option Kind) (lexeme : Lexeme) : Prop where
  freed : IsName lexeme.text →
    ∀ kind ∈ previous, Lexer.Word.freesWords kind = true → lexeme.kind = .name
  member : IsName lexeme.text → previous = some .doubleColon →
    lexeme.kind = if lower lexeme.text = "class".toList then .keyword .class_ else .name
  reserved : lexeme.kind.isReserved = true → lexeme.kind ≠ .flow .yieldFrom →
    Lexer.Word.reserved? lexeme.text = some lexeme.kind

namespace Fits

variable {previous : Option Kind} {kind : Kind} {text : List Char}

theorem of_not_isName (h : ¬IsName text) (hkind : kind.isReserved = false) :
    Fits previous ⟨kind, text⟩ :=
  ⟨fun hname => absurd hname h, fun hname => absurd hname h,
    fun hreserved => absurd hreserved (by simp [hkind])⟩

theorem of_calm (h : Calm previous) (hkind : kind.isReserved = false) :
    Fits previous ⟨kind, text⟩ := by
  refine ⟨fun _ found hmem hfrees => ?_, fun _ hcolons => ?_,
    fun hreserved => absurd hreserved (by simp [hkind])⟩
  · have hsteers := h found hmem
    rw [Kind.steers, hfrees] at hsteers
    cases hsteers
  · exact absurd (h _ hcolons) (by decide)

theorem name (h : previous ≠ some .doubleColon) : Fits previous ⟨.name, text⟩ :=
  ⟨fun _ _ _ _ => rfl, fun _ hcolons => absurd hcolons h, nofun⟩

/-- A `yield` that has taken its `from` along. -/
theorem yieldFrom (h : ¬IsName text) : Fits previous ⟨.flow .yieldFrom, text⟩ :=
  ⟨fun hname => absurd hname h, fun hname => absurd hname h, fun _ hne => absurd rfl hne⟩

/-- Where code is read a word fits its place. -/
theorem of_kindAfter (previous : Option Kind) (word : List Char) :
    Fits previous ⟨Lexer.Word.kindAfter previous word, word⟩ := by
  refine ⟨?_, ?_, ?_⟩
  · rintro - kind rfl hfrees
    exact if_pos hfrees
  · rintro - rfl
    exact Lexer.Word.kindAfter_doubleColon word
  · intro hreserved _
    rcases Lexer.Word.kindAfter_eq_or previous word with hname | htable
    · rw [hname] at hreserved
      cases hreserved
    · exact htable

end Fits

end Lexeme

/-- The lexemes fit one behind the other. -/
def AllFit (previous : Option Kind) : List Lexeme → Prop
  | [] => True
  | lexeme :: after =>
    lexeme.Fits previous ∧ AllFit (Lexer.State.significant previous [lexeme]) after

namespace AllFit

open Lexer.State (significant)

variable {previous : Option Kind} {lexeme : Lexeme} {lexemes after : List Lexeme}

theorem significant_append (previous : Option Kind) (front back : List Lexeme) :
    significant previous (front ++ back) = significant (significant previous front) back :=
  List.foldl_append

theorem append (h : AllFit previous lexemes)
    (hafter : AllFit (significant previous lexemes) after) : AllFit previous (lexemes ++ after) := by
  induction lexemes generalizing previous with
  | nil => exact hafter
  | cons lexeme lexemes ih => exact ⟨h.1, ih h.2 hafter⟩

/-- What is said of all is said of each. -/
theorem apply (h : AllFit previous (lexemes ++ lexeme :: after)) :
    lexeme.Fits (significant previous lexemes) := by
  induction lexemes generalizing previous with
  | nil => exact h.1
  | cons first lexemes ih => exact ih h.2

theorem calm_significant (h : Calm previous)
    (hall : ∀ lexeme ∈ lexemes, lexeme.kind.isCalm = true) : Calm (significant previous lexemes) := by
  induction lexemes generalizing previous with
  | nil => exact h
  | cons lexeme lexemes ih =>
    rw [List.forall_mem_cons] at hall
    apply ih _ hall.2
    dsimp only
    split
    · exact .some hall.1
    · exact h

/-- Where nothing steers, what does not steer either may be read as it is. -/
theorem of_calm (h : Calm previous) (hall : ∀ lexeme ∈ lexemes, lexeme.kind.isCalm = true) :
    AllFit previous lexemes := by
  induction lexemes generalizing previous with
  | nil => trivial
  | cons lexeme lexemes ih =>
    have hsingle : ∀ found ∈ [lexeme], found.kind.isCalm = true :=
      List.forall_mem_singleton.2 (hall lexeme List.mem_cons_self)
    rw [List.forall_mem_cons] at hall
    have hreserved : lexeme.kind.isReserved = false := by
      simpa using (Bool.and_eq_true_iff.1 hall.1).2
    exact ⟨.of_calm h hreserved, ih (calm_significant h hsingle) hall.2⟩

end AllFit

namespace Lexer

/-! ## Texts that are no names -/

theorem not_isName_of_headIs {cs : List Char} (h : headIs isNameStart cs = false) : ¬IsName cs := by
  rintro ⟨hs, -⟩
  rw [h] at hs
  cases hs

/-- A first lexeme begins like the text that it was read off. -/
theorem not_isName_of_covers {kind : Kind} {text rest cs : List Char}
    (h : headIs isNameStart cs = false) (hcovers : Covers [⟨kind, text⟩] rest cs) :
    ¬IsName text := by
  have htext : text ≠ [] := hcovers.texts _ List.mem_cons_self
  rw [← hcovers.spelled, Lexeme.spell_cons, Lexeme.spell_nil, List.append_nil,
    headIs_append htext] at h
  exact not_isName_of_headIs h

theorem not_isName_of_mem {cs : List Char} {c : Char} (hmem : c ∈ cs) (h : isNameChar c = false) :
    ¬IsName cs := by
  rintro ⟨-, hall⟩
  rw [hall c hmem] at h
  cases h

theorem isNameChar_of_isSpace {c : Char} (h : isSpace c = true) : isNameChar c = false := by
  simp only [isSpace, Bool.or_eq_true, beq_iff_eq] at h
  rcases h with ((rfl | rfl) | rfl) | rfl <;> rfl

theorem isSpace_of_isBlank {c : Char} (h : isBlank c = true) : isSpace c = true := by
  rw [isBlank] at h
  simp [isSpace, h]

theorem not_isName_takeWhile_isSpace {cs : List Char} (h : headIs isSpace cs = true) :
    ¬IsName (cs.takeWhile isSpace) := by
  cases cs with
  | nil => cases h
  | cons c cs =>
    rw [headIs_cons] at h
    apply not_isName_of_mem _ (isNameChar_of_isSpace h)
    simp [h]

theorem Quoted.IsOpening.isNameChar {quote : Char} {text : List Char} (h : IsOpening quote text) :
    isNameChar quote = false := by
  rcases h.1 with rfl | rfl | rfl <;> rfl

theorem Quoted.IsOpening.mem {quote : Char} {text : List Char} (h : IsOpening quote text) :
    quote ∈ text := by
  obtain ⟨-, mark, -, rfl⟩ := h
  simp

theorem Heredoc.not_isName_text {cs : List Char} {header : Header} (h : header? cs = some header) :
    ¬IsName header.text := by
  obtain ⟨blanks, quotes, -, -, htext⟩ := header?_text_eq h
  rw [htext]
  exact not_isName_of_headIs rfl

/-- A gap stands between `yield` and the `from` that it takes along. -/
theorem Word.not_isName_append_from {cs tail rest : List Char} (h : from? cs = some (tail, rest))
    (word : List Char) : ¬IsName (word ++ tail) := by
  unfold from? at h
  split at h
  · next hblank =>
    split at h
    · split at h
      · cases h
      · cases h
        cases cs with
        | nil => cases hblank
        | cons c cs =>
          rw [headIs_cons] at hblank
          apply not_isName_of_mem _ (isNameChar_of_isSpace (isSpace_of_isBlank hblank))
          simp [hblank]
    · cases h
  · cases h

/-! ## What one step does -/

namespace Context

/-- Where no code is read nothing steers. -/
def IsCalm (previous : Option Kind) : Context → Prop
  | .html | .data | .body .. => Calm previous
  | .code | .halting | .hole .. => True

/-- The lexemes of a step fit, and so may what comes after them. -/
structure FitsIn (previous : Option Kind) (step : Step) : Prop where
  fit : AllFit previous step.lexemes
  calm : step.context.IsCalm (State.significant previous step.lexemes)

theorem IsCalm.of_calm {previous : Option Kind} (h : Calm previous) (context : Context) :
    context.IsCalm previous := by
  cases context with
  | html | data | body => exact h
  | code | halting | hole => trivial

/-- Only punctuation leads out of code. -/
theorem IsCalm.afterLexeme {context : Context} (hcode : context.ReadsCode) {last : Lexeme}
    {previous : Option Kind} (h : last.kind = .punct → Calm previous) :
    (context.afterLexeme last).IsCalm previous := by
  have hpunct : ∀ c, last.isPunct c = true → last.kind = .punct := by
    intro c hc
    simpa using (Bool.and_eq_true_iff.1 hc).1
  cases context with
  | html | data | body => exact hcode.elim
  | code =>
    simp only [Context.afterLexeme]
    split <;> trivial
  | halting =>
    simp only [Context.afterLexeme]
    split
    · next hend => exact .of_calm (h (hpunct _ hend)) _
    · trivial
  | hole depth opened outer =>
    simp only [Context.afterLexeme]
    split
    · trivial
    · split
      · next hclose =>
        split
        · exact .of_calm (h (hpunct _ hclose)) _
        · trivial
      · trivial

section Steps

variable {context : Context} {line : Nat} {previous : Option Kind} {cs : List Char} {next : Step}

/-- One lexeme of code. -/
theorem FitsIn.one (hcode : context.ReadsCode) {last : Lexeme} (h : last.Fits previous)
    (rest : List Char) : FitsIn previous ⟨[last], rest, context.afterLexeme last⟩ := by
  refine ⟨⟨h, trivial⟩, .afterLexeme hcode fun hpunct => ?_⟩
  have hlast : State.significant previous [last] = some .punct := by
    rw [← hpunct]
    exact State.significant_concat previous [] (by rw [hpunct]; rfl)
  rw [hlast]
  exact .some rfl

/-- Where nothing steers, what does not steer either may be read as it is. -/
theorem FitsIn.of_calm (h : Calm previous)
    (hall : ∀ lexeme ∈ next.lexemes, lexeme.kind.isCalm = true) : FitsIn previous next :=
  ⟨.of_calm h hall, .of_calm (AllFit.calm_significant h hall) next.context⟩

/-- Behind a first lexeme that counts and does not steer, the others neither. -/
theorem FitsIn.cons {first : Lexeme} {others : List Lexeme} {rest : List Char}
    {context' : Context} (h : first.Fits previous) (hfirst : first.kind.isCalm = true)
    (hsignificant : first.kind.isSignificant = true)
    (hall : ∀ lexeme ∈ others, lexeme.kind.isCalm = true) :
    FitsIn previous ⟨first :: others, rest, context'⟩ := by
  have hlast := State.significant_concat previous [] hsignificant
  rw [List.nil_append] at hlast
  have hcalm : Calm (State.significant previous [first]) := by
    rw [hlast]
    exact .some hfirst
  exact ⟨⟨h, .of_calm hcalm hall⟩, .of_calm (AllFit.calm_significant hcalm hall) context'⟩

theorem FitsIn.plain {quote : Char} {opening : List Char}
    (h : Quoted.IsOpening quote opening) (body rest : List Char) (context' : Context) :
    FitsIn previous ⟨Quoted.plain opening body quote, rest, context'⟩ := by
  unfold Quoted.plain
  split
  · refine .cons (.of_not_isName (not_isName_of_mem h.mem h.isNameChar) rfl) rfl rfl ?_
    exact List.forall_mem_cons.2 ⟨rfl, List.forall_mem_singleton.2 rfl⟩
  · refine .cons (.of_not_isName (not_isName_of_mem ?_ h.isNameChar) rfl) rfl rfl nofun
    simp

theorem stepCode_fits (hcode : context.ReadsCode) (hne : cs ≠ [])
    (hs : context.stepCode line previous cs = .ok next) : FitsIn previous next := by
  obtain ⟨scan, context', hscan, hafter, rfl⟩ := exists_scan_of_stepCode hs
  have hcovers := Code.scan_covers hne hscan
  cases Code.scan_shape hne hscan with
  | gap hspace =>
    cases hafter
    exact .one hcode (.of_not_isName (not_isName_takeWhile_isSpace hspace) rfl) _
  | word hword =>
    obtain ⟨-, rfl | ⟨tail, rest, hfrom, rfl⟩ | ⟨henum, rfl⟩⟩ := Word.rule_cases hword
    · cases hafter
      exact .one hcode (.of_kindAfter _ _) _
    · cases hafter
      exact .one hcode (.yieldFrom (Word.not_isName_append_from hfrom _)) rest
    · cases hafter
      refine .one hcode (.name ?_) _
      -- Behind `::` it would have been a name from the start.
      rintro rfl
      rw [Word.kindAfter_doubleColon] at henum
      split at henum <;> cases henum
  | number hnumber =>
    obtain ⟨hstart, kind, text, rest, hkind, rfl⟩ := Number.rule_cases hnumber
    cases hafter
    have hname : ¬IsName text := not_isName_of_covers hstart hcovers
    rcases hkind with rfl | rfl
    · exact .one hcode (.of_not_isName hname rfl) rest
    · exact .one hcode (.of_not_isName hname rfl) rest
  | sign hsign =>
    obtain ⟨hstart, kind, text, rest, hkind, rfl⟩ := hsign
    cases hafter
    have hname : ¬IsName text := not_isName_of_covers hstart hcovers
    exact .one hcode (.of_not_isName hname (Kind.isReserved_of_isSign hkind)) rest
  | string hopening => exact .plain hopening _ _ context'
  | enter hopening =>
    exact .cons (.of_not_isName (not_isName_of_mem hopening.mem hopening.isNameChar) rfl) rfl rfl
      nofun
  | heredoc hheader =>
    exact .cons (.of_not_isName (Heredoc.not_isName_text hheader) rfl) rfl rfl nofun
  | nowdoc hheader =>
    refine .cons (.of_not_isName (Heredoc.not_isName_text hheader) rfl) rfl rfl ?_
    exact List.forall_mem_append.2
      ⟨Lexeme.forall_mem_ofText rfl, List.forall_mem_singleton.2 rfl⟩
  | leave htext =>
    exact .cons (.of_not_isName (not_isName_of_headIs htext) rfl) rfl rfl nofun

theorem stepHtml_fits (h : Calm previous) (cs : List Char) : FitsIn previous (stepHtml cs) := by
  unfold stepHtml
  split
  · next tag rest htag =>
    have htagCalm : tag.kind.isCalm = true := by
      rcases Markup.openTag?_kind htag with hkind | hkind <;> rw [hkind] <;> rfl
    refine .of_calm h (List.forall_mem_append.2 ⟨Lexeme.forall_mem_ofText rfl, ?_⟩)
    exact List.forall_mem_singleton.2 htagCalm
  · exact .of_calm h (List.forall_mem_singleton.2 rfl)

/-- Behind a variable there may be an arrow, but behind that there is a name. -/
theorem access_fits (h : Calm previous) (cs : List Char) :
    AllFit previous (Body.access cs).1 ∧ Calm (State.significant previous (Body.access cs).1) := by
  obtain hnone | ⟨inside, kind, text, hkey, hoffset⟩ | ⟨kind, arrow, name, hkind, -, hmember, -⟩ :=
    Body.access_cases cs
  · rw [hnone]
    exact ⟨trivial, h⟩
  · rw [hoffset]
    have hcalm : kind.isCalm = true := by
      obtain ⟨rfl, -⟩ | rfl | rfl := Body.key?_cases hkey <;> rfl
    have hall : ∀ lexeme ∈ [⟨.punct, ['[']⟩, ⟨kind, text⟩, (⟨.punct, [']']⟩ : Lexeme)],
        lexeme.kind.isCalm = true :=
      List.forall_mem_cons.2 ⟨rfl, List.forall_mem_cons.2 ⟨hcalm, List.forall_mem_singleton.2 rfl⟩⟩
    exact ⟨.of_calm h hall, AllFit.calm_significant h hall⟩
  · rw [hmember]
    rcases hkind with rfl | rfl
    · exact ⟨⟨.of_calm h rfl, .name nofun, trivial⟩, .some rfl⟩
    · exact ⟨⟨.of_calm h rfl, .name nofun, trivial⟩, .some rfl⟩

theorem stepBody_fits {closer : Closer} {opened : Nat} {fresh : Bool} {outer : Context}
    (h : Calm previous) (hs : stepBody closer opened fresh outer line cs = .ok next) :
    FitsIn previous next := by
  obtain ⟨text, event, hseek, rfl⟩ := exists_seek_of_stepBody hs
  have hliteral : ∀ lexeme ∈ Lexeme.ofText .literal text, lexeme.kind.isCalm = true :=
    Lexeme.forall_mem_ofText rfl
  cases Body.seek_shape hseek with
  | quote =>
    exact .of_calm h (List.forall_mem_append.2 ⟨hliteral, List.forall_mem_singleton.2 rfl⟩)
  | label =>
    exact .of_calm h (List.forall_mem_append.2 ⟨hliteral, List.forall_mem_singleton.2 rfl⟩)
  | @splice name after =>
    have hfront : ∀ lexeme ∈ Lexeme.ofText .literal text ++ [⟨.variable_, '$' :: name⟩],
        lexeme.kind.isCalm = true :=
      List.forall_mem_append.2 ⟨hliteral, List.forall_mem_singleton.2 rfl⟩
    obtain ⟨hfit, hcalm⟩ := access_fits (AllFit.calm_significant h hfront) after
    rw [← AllFit.significant_append] at hcalm
    refine ⟨?_, ?_⟩
    · show AllFit previous (Lexeme.ofText .literal text ++ _ :: (Body.access after).1)
      rw [List.append_cons]
      exact .append (.of_calm h hfront) hfit
    · show Calm (State.significant previous (Lexeme.ofText .literal text ++ _ :: _))
      rw [List.append_cons]
      exact hcalm
  | dollarBrace hname =>
    refine .of_calm h (List.forall_mem_append.2 ⟨hliteral, List.forall_mem_cons.2 ⟨rfl, ?_⟩⟩)
    rcases hname with rfl | ⟨braced, rfl⟩
    · nofun
    · exact List.forall_mem_singleton.2 rfl
  | brace =>
    exact .of_calm h (List.forall_mem_append.2 ⟨hliteral, List.forall_mem_singleton.2 rfl⟩)

/-- What one step keeps. -/
theorem step_fits (h : context.IsCalm previous) (hne : cs ≠ [])
    (hs : context.step line previous cs = .ok next) : FitsIn previous next := by
  obtain ⟨rfl, rfl⟩ | ⟨rfl, rfl⟩ | ⟨hcode, hs⟩ | ⟨closer, opened, fresh, outer, rfl, hs⟩ :=
    step_cases hs
  · exact stepHtml_fits h cs
  · exact .of_calm h (List.forall_mem_singleton.2 rfl)
  · exact stepCode_fits hcode hne hs
  · exact stepBody_fits h hs

end Steps

end Context

/-- What a whole reading keeps. -/
theorem Reads.allFit {state : State} {lexemes : List Lexeme} (h : Reads state lexemes)
    (hcalm : state.context.IsCalm state.previous) : AllFit state.previous lexemes := by
  induction h with
  | done => trivial
  | step hne hstep _ ih =>
    have hfits := Context.step_fits hcalm hne hstep
    exact hfits.fit.append (ih hfits.calm)

theorem State.significant_of_trivia {trivia : List Lexeme}
    (h : ∀ gap ∈ trivia, gap.kind.isSignificant = false) (previous : Option Kind) :
    significant previous trivia = previous := by
  induction trivia with
  | nil => rfl
  | cons gap trivia ih =>
    rw [List.forall_mem_cons] at h
    rw [significant, List.foldl_cons, h.1]
    exact ih h.2

/-- Spaces and comments do not hide what stands before them. -/
theorem State.significant_append_trivia (previous : Option Kind) (front : List Lexeme)
    {lexeme : Lexeme} (h : lexeme.kind.isSignificant = true) {trivia : List Lexeme}
    (htrivia : ∀ gap ∈ trivia, gap.kind.isSignificant = false) :
    significant previous (front ++ lexeme :: trivia) = some lexeme.kind := by
  rw [List.append_cons, AllFit.significant_append, significant_of_trivia htrivia]
  exact significant_concat previous front h

end Lexer

/-! ## The words of a source -/

/-- **A word is read in its place**: behind the access to a member, a separator, `function` or
`const` every word is a name, and behind `::` every word but `class`. Only what the table of
reserved words has as a word of that kind is one; `yield from` alone is not in the table. -/
theorem tokenize_words_fit {source : String} {tokens : List Token}
    (h : tokenize source = .ok tokens) :
    (∀ front previous trivia word after,
      tokens = front ++ previous :: (trivia ++ word :: after) →
      previous.kind.isSignificant = true →
      (∀ token ∈ trivia, token.kind.isSignificant = false) →
      IsName word.text.toList →
      (previous.kind ∈ [.grammar .arrow, .grammar .nullsafeArrow, .separator, .keyword .function,
        .keyword .const] → word.kind = .name)
      ∧ (previous.kind = .doubleColon →
        word.kind = if lower word.text.toList = "class".toList then .keyword .class_ else .name))
      ∧ ∀ token ∈ tokens, token.kind.isReserved = true → token.kind ≠ .flow .yieldFrom →
        Lexer.Word.table.lookup (String.ofList (lower token.text.toList)) = some token.kind := by
  obtain ⟨lexemes, hreads, rfl⟩ := Lexer.reads_of_tokenize h
  have hcalm : (Lexer.State.start source.toList).context.IsCalm
      (Lexer.State.start source.toList).previous := nofun
  have hall := hreads.allFit hcalm
  have hlexemes := Token.map_lexeme_place 1 lexemes
  refine ⟨?_, ?_⟩
  · intro front previous trivia word after htokens hsignificant htrivia hname
    have hsplit : lexemes = (front.map Token.lexeme ++ previous.lexeme :: trivia.map Token.lexeme)
        ++ word.lexeme :: after.map Token.lexeme := by
      rw [← hlexemes, htokens]
      simp
    have htrivia : ∀ gap ∈ trivia.map Token.lexeme, gap.kind.isSignificant = false :=
      List.forall_mem_map.2 htrivia
    rw [hsplit] at hall
    have hfits := hall.apply
    rw [Lexer.State.significant_append_trivia _ _ hsignificant htrivia] at hfits
    refine ⟨fun hkind => hfits.freed hname _ rfl ?_, fun hkind => hfits.member hname ?_⟩
    · show Lexer.Word.freesWords previous.kind = true
      simp only [List.mem_cons, List.not_mem_nil, or_false] at hkind
      rcases hkind with hkind | hkind | hkind | hkind | hkind <;> rw [hkind] <;> rfl
    · exact congrArg some hkind
  · intro token hmem hreserved hne
    have hmem : token.lexeme ∈ lexemes := hlexemes ▸ List.mem_map_of_mem hmem
    obtain ⟨front, after, rfl⟩ := List.append_of_mem hmem
    exact hall.apply.reserved hreserved hne

/-- A comment may stand between the arrow and the name. -/
theorem tokenize_words_fit_comment :
    ∃ front arrow trivia word after,
      tokenize "<?php $a?-> /* all */ List(A::Class);"
        = .ok (front ++ arrow :: (trivia ++ word :: after))
      ∧ arrow.kind = .grammar .nullsafeArrow ∧ word.text = "List" ∧ word.kind = .name := by
  have h : (tokenize "<?php $a?-> /* all */ List(A::Class);").toOption
      = some ([⟨.tag .open_, "<?php ", 1⟩, ⟨.variable_, "$a", 1⟩] ++
        ⟨.grammar .nullsafeArrow, "?->", 1⟩ ::
        ([⟨.whitespace, " ", 1⟩, ⟨.comment, "/* all */", 1⟩, ⟨.whitespace, " ", 1⟩] ++
        ⟨.name, "List", 1⟩ :: [⟨.punct, "(", 1⟩, ⟨.name, "A", 1⟩, ⟨.doubleColon, "::", 1⟩,
          ⟨.keyword .class_, "Class", 1⟩, ⟨.punct, ")", 1⟩, ⟨.punct, ";", 1⟩])) := by
    decide +kernel
  have h := Lexer.tokenize_of_toOption h
  have hfits := (tokenize_words_fit h).1 _ _ _ _ _ rfl rfl (by decide)
    ⟨rfl, List.all_eq_true.1 rfl⟩
  exact ⟨_, _, _, _, _, h, rfl, rfl, hfits.1 (by decide)⟩

end Listing
