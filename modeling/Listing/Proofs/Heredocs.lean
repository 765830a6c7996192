import Listing.Proofs.Braces
import Listing.Proofs.Endings

/-!
# Heredocs in heredocs

A heredoc may hold code, and that code heredocs of its own, perhaps with the same label. The
contexts remember the labels, the innermost first (`Context.labels`), and what was read is enclosed
by the lexemes that opened them (`Encloses`). A step adds lexemes that open and close nothing, or
opens one more heredoc, or closes the innermost (`Context.step_carries`), and so at the end of a
source each one is closed, by the label it was opened with.

That a heredoc is closed only where a line begins needs one more thing to be remembered. In front of
a body that has just been opened, or goes on behind a variable or a hole, the reader says by a flag
whether a line begins; the flag is set only behind the newline of an opening line
(`Context.Fresh`).
-/

namespace Listing

open Text

/-! ## Brackets -/

section Brackets

variable {α : Type} {weight : α → Int} {xs ys : List α} {level : Int}

theorem Settles.append (hx : Settles weight level xs) (hy : Settles weight 0 ys) :
    Settles weight level (xs ++ ys) := by
  induction hx with
  | nil => exact hy
  | cons hlevel _ ih => exact .cons hlevel ih

theorem Settles.of_weightless (h : ∀ x ∈ xs, weight x = 0) : Settles weight 0 xs := by
  induction xs with
  | nil => exact .nil
  | cons x xs ih =>
    rw [List.forall_mem_cons] at h
    refine .cons (Int.le_refl 0) ?_
    rw [h.1]
    exact ih h.2

/-- A closing bracket behind a list that settles takes it one level further down. -/
theorem Settles.close {y : α} (hx : Settles weight level xs) (hy : weight y = -1) :
    Settles weight (level + 1) (xs ++ [y]) := by
  induction hx with
  | nil =>
    refine .cons (by decide) ?_
    rw [hy]
    exact .nil
  | @cons level x xs hlevel _ ih =>
    refine .cons (by omega) ?_
    rwa [Int.add_right_comm]

theorem Settles.wrap {x y : α} (hx : weight x = 1) (hy : weight y = -1)
    (h : Settles weight 0 xs) : Settles weight 0 (x :: (xs ++ [y])) := by
  refine .cons (Int.le_refl 0) ?_
  rw [hx]
  exact h.close hy

end Brackets

/-! ## Opening and closing lines -/

/-- Heredocs opened and closed. -/
def Lexeme.heredocs (lexeme : Lexeme) : Int :=
  match lexeme.kind with
  | .grammar .startHeredoc => 1
  | .grammar .endHeredoc => -1
  | _ => 0

namespace Lexeme

variable {lexeme : Lexeme}

/-- A class of kinds without the edges of heredocs. -/
theorem heredocs_of_class {p : Kind → Bool} (h : p lexeme.kind = true)
    (hstart : p (.grammar .startHeredoc) = false) (hend : p (.grammar .endHeredoc) = false) :
    lexeme.heredocs = 0 := by
  unfold heredocs
  split
  · next hkind =>
    rw [hkind, hstart] at h
    cases h
  · next hkind =>
    rw [hkind, hend] at h
    cases h
  · rfl

theorem Neutral.heredocs (h : lexeme.Neutral) : lexeme.heredocs = 0 :=
  heredocs_of_class h.isPlain rfl rfl

theorem heredocs_of_kind (h : lexeme.kind = .grammar .endHeredoc) : lexeme.heredocs = -1 := by
  rw [heredocs, h]

end Lexeme

namespace Lexer.Heredoc

/-- The label that is written in an opening line: its first name. -/
def written (text : List Char) : List Char :=
  (text.dropWhile fun c => !isNameStart c).takeWhile isNameChar

theorem written_append {lead : List Char} {label : Label} {rest : List Char}
    (hlead : ∀ c ∈ lead, isNameStart c = false) (hname : label.IsName)
    (hrest : headIs isNameChar rest = false) :
    written (lead ++ (label.chars ++ rest)) = label.chars := by
  have hall : ∀ c ∈ label.chars, isNameChar c = true := by
    intro c hc
    rcases List.mem_cons.1 hc with rfl | hc
    · exact isNameChar_of_isNameStart hname.1
    · exact hname.2 c hc
  have hdrop : (lead ++ (label.chars ++ rest)).dropWhile (fun c => !isNameStart c)
      = label.chars ++ rest := by
    rw [List.dropWhile_append_of_pos (by simpa using hlead), Label.chars, List.cons_append,
      List.dropWhile_cons_of_neg (by simp [hname.1])]
  have htake : rest.takeWhile isNameChar = [] := by
    refine Decidable.byContradiction fun hne => ?_
    rw [headIs_iff_takeWhile.2 hne] at hrest
    cases hrest
  rw [written, hdrop, List.takeWhile_append_of_pos hall, htake, List.append_nil]

theorem written_header? {cs : List Char} {header : Header} (h : header? cs = some header) :
    written header.text = header.label.chars := by
  obtain ⟨blanks, quotes, hblanks, hquotes, htext⟩ := header?_text_eq h
  have hlead : ∀ c ∈ '<' :: '<' :: '<' :: (blanks ++ quotes), isNameStart c = false := by
    simp only [List.forall_mem_cons, List.forall_mem_append]
    refine ⟨rfl, rfl, rfl, fun c hc => isNameStart_of_isBlank (hblanks c hc), ?_⟩
    rcases hquotes with rfl | rfl | rfl
    · nofun
    · exact List.forall_mem_singleton.2 rfl
    · exact List.forall_mem_singleton.2 rfl
  have hend : headIs isNameChar (quotes ++ ['\n']) = false := by
    rcases hquotes with rfl | rfl | rfl <;> decide
  rw [← written_append hlead (header?_isName h) hend, htext]
  simp

theorem dropWhile_of_closeAt? {label : Label} (hname : label.IsName) {line : List Char}
    {closing : List Char × List Char} (h : closeAt? label line = some closing) :
    closing.1.dropWhile isBlank = label.chars := by
  unfold closeAt? at h
  split at h
  · cases h
  · split at h
    · cases h
    · cases h
      have hdrop := hname.dropWhile_isBlank (List.all_eq_true.1 (List.all_takeWhile (l := line))) []
      rwa [List.append_nil] at hdrop

end Lexer.Heredoc

/-! ## What encloses a place -/

/-- The lexeme is the opening line of a heredoc with the label. -/
structure Lexeme.Opens (label : Lexer.Label) (lexeme : Lexeme) : Prop where
  kind : lexeme.kind = .grammar .startHeredoc
  isName : label.IsName
  written : Lexer.Heredoc.written lexeme.text = label.chars

/-- Behind the lexemes `before` the heredocs with these labels are open, the innermost first. -/
def Encloses : List Lexer.Label → List Lexeme → Prop
  | [], before => Settles Lexeme.heredocs 0 before
  | label :: labels, before =>
    ∃ front opening inside, before = front ++ opening :: inside ∧ opening.Opens label
      ∧ Settles Lexeme.heredocs 0 inside ∧ Encloses labels front

/-- The lexeme `closing` closes a heredoc that is open behind the lexemes `before`: what stands
between the two is balanced, the label is the one that was written, and a line begins here. -/
def Lexeme.Closes (before : List Lexeme) (closing : Lexeme) : Prop :=
  ∃ front opening inside, before = front ++ opening :: inside
    ∧ opening.kind = .grammar .startHeredoc ∧ Balanced Lexeme.heredocs inside
    ∧ closing.text.dropWhile isBlank = Lexer.Heredoc.written opening.text
    ∧ (spell before).getLast? = some '\n'

/-- All that close a heredoc among the lexemes behind those `before` close one. -/
def AllClose (before : List Lexeme) : List Lexeme → Prop
  | [] => True
  | lexeme :: after =>
    (lexeme.kind = .grammar .endHeredoc → lexeme.Closes before)
      ∧ AllClose (before ++ [lexeme]) after

section Lists

variable {labels : List Lexer.Label} {before lexemes after : List Lexeme}

theorem Encloses.append (h : Encloses labels before) (hs : Settles Lexeme.heredocs 0 lexemes) :
    Encloses labels (before ++ lexemes) := by
  cases labels with
  | nil => exact Settles.append h hs
  | cons label labels =>
    obtain ⟨front, opening, inside, rfl, hopens, hinside, hfront⟩ := h
    exact ⟨front, opening, inside ++ lexemes, by simp, hopens, hinside.append hs, hfront⟩

theorem Encloses.open {label : Lexer.Label} {opening : Lexeme} (h : Encloses labels before)
    (hopens : opening.Opens label) : Encloses (label :: labels) (before ++ [opening]) :=
  ⟨before, opening, [], rfl, hopens, .nil, h⟩

theorem Encloses.isName {label : Lexer.Label} (h : Encloses (label :: labels) before) :
    label.IsName := by
  obtain ⟨front, opening, inside, -, hopens, -⟩ := h
  exact hopens.isName

/-- Closing the innermost heredoc. -/
theorem Encloses.close {label : Lexer.Label} {closing : Lexeme}
    (h : Encloses (label :: labels) before) (hkind : closing.kind = .grammar .endHeredoc) :
    Encloses labels (before ++ [closing]) := by
  obtain ⟨front, opening, inside, rfl, hopens, hinside, hfront⟩ := h
  have hwrap : Settles Lexeme.heredocs 0 (opening :: (inside ++ [closing])) :=
    .wrap (by rw [Lexeme.heredocs, hopens.kind]) (Lexeme.heredocs_of_kind hkind) hinside
  have hwhole := hfront.append hwrap
  rwa [← List.cons_append, ← List.append_assoc] at hwhole

theorem Encloses.closes {label : Lexer.Label} {closing : Lexeme}
    (h : Encloses (label :: labels) before) (htext : closing.text.dropWhile isBlank = label.chars)
    (hline : (Lexeme.spell before).getLast? = some '\n') : closing.Closes before := by
  obtain ⟨front, opening, inside, rfl, hopens, hinside, -⟩ := h
  exact ⟨front, opening, inside, rfl, hopens.kind, hinside.balanced,
    htext.trans hopens.written.symm, hline⟩

theorem AllClose.append (h : AllClose before lexemes)
    (hafter : AllClose (before ++ lexemes) after) : AllClose before (lexemes ++ after) := by
  induction lexemes generalizing before with
  | nil => simpa using hafter
  | cons lexeme lexemes ih => exact ⟨h.1, ih h.2 (by simpa using hafter)⟩

theorem AllClose.of_weightless (h : ∀ lexeme ∈ lexemes, lexeme.heredocs = 0) :
    AllClose before lexemes := by
  induction lexemes generalizing before with
  | nil => trivial
  | cons lexeme lexemes ih =>
    rw [List.forall_mem_cons] at h
    refine ⟨fun hkind => ?_, ih h.2⟩
    rw [Lexeme.heredocs_of_kind hkind] at h
    exact absurd h.1 (by decide)

/-- Literal text up to the line that closes the innermost heredoc, and that line. -/
theorem Encloses.close_line {label : Lexer.Label} (h : Encloses (label :: labels) before)
    {text closing : List Char} (hclosing : closing.dropWhile isBlank = label.chars)
    (hline : (Lexeme.spell before ++ text).getLast? = some '\n') :
    Encloses labels (before ++ (Lexeme.ofText .literal text ++ [⟨.grammar .endHeredoc, closing⟩]))
      ∧ AllClose before
        (Lexeme.ofText .literal text ++ [⟨.grammar .endHeredoc, closing⟩]) := by
  have hweightless : ∀ lexeme ∈ Lexeme.ofText .literal text, lexeme.heredocs = 0 :=
    fun lexeme hmem => (Lexer.neutral_of_mem_literal text lexeme hmem).heredocs
  have hinner := h.append (.of_weightless hweightless)
  refine ⟨?_, (AllClose.of_weightless hweightless).append ⟨fun _ => ?_, trivial⟩⟩
  · rw [← List.append_assoc]
    exact hinner.close rfl
  · exact hinner.closes hclosing (by simpa using hline)

/-- What is said of all is said of each. -/
theorem AllClose.apply {front : List Lexeme} {closing : Lexeme}
    (h : AllClose before (front ++ closing :: after))
    (hkind : closing.kind = .grammar .endHeredoc) : closing.Closes (before ++ front) := by
  induction front generalizing before with
  | nil => simpa using h.1 hkind
  | cons first front ih => simpa using ih h.2

end Lists

namespace Lexer

/-! ## Contexts -/

namespace Context

/-- The labels of the heredocs around a place, the innermost first. -/
def labels : Context → List Label
  | .html | .code | .halting | .data => []
  | .body (.label label) _ _ outer => label :: outer.labels
  | .body _ _ _ outer => outer.labels
  | .hole _ _ outer => outer.labels

/-- The flag of a heredoc's body says that a line begins only if one does here; the flags of those
around are not set. -/
def Fresh (begins : Prop) : Context → Prop
  | .html | .code | .halting | .data => True
  | .body closer _ fresh outer =>
    ((∃ label, closer = .label label) → fresh = true → begins) ∧ outer.Fresh False
  | .hole _ _ outer => outer.Fresh False

theorem Fresh.imp {begins begins' : Prop} (h : begins → begins') {context : Context}
    (hf : context.Fresh begins) : context.Fresh begins' := by
  cases context with
  | html | code | halting | data => trivial
  | body closer opened fresh outer =>
    exact ⟨fun hlabel hfresh => h (hf.1 hlabel hfresh), hf.2⟩
  | hole depth opened outer => exact hf

/-- What the context remembers of the lexemes before it. -/
structure Follows (before : List Lexeme) (context : Context) : Prop where
  encloses : Encloses context.labels before
  fresh : context.Fresh ((Lexeme.spell before).getLast? = some '\n')

/-- What a step carries on behind the lexemes `before`. -/
structure Carries (before : List Lexeme) (step : Step) : Prop where
  follows : step.context.Follows (before ++ step.lexemes)
  closes : AllClose before step.lexemes

theorem labels_afterLexeme (context : Context) (last : Lexeme) :
    (context.afterLexeme last).labels = context.labels := by
  unfold afterLexeme
  split
  · split <;> rfl
  · split <;> rfl
  · split
    · rfl
    · split
      · split <;> rfl
      · rfl
  · rfl

theorem Fresh.afterLexeme {context : Context} (h : context.Fresh False) (last : Lexeme) :
    (context.afterLexeme last).Fresh False := by
  unfold Context.afterLexeme
  split
  · split <;> trivial
  · split <;> trivial
  · split
    · exact h
    · split
      · split <;> exact h
      · exact h
  · exact h

/-- The context behind a token that enters no body: the same heredocs are open. -/
theorem labels_afterScan {context next : Context} {line : Nat} {scan : Scan}
    (hstay : scan.turn = .stay) (hf : context.Fresh False)
    (h : context.afterScan line scan = .ok next) :
    next.labels = context.labels ∧ next.Fresh False := by
  rw [afterScan, hstay] at h
  dsimp only at h
  split at h
  · cases h
    exact ⟨labels_afterLexeme _ _, hf.afterLexeme _⟩
  · cases h
    exact ⟨rfl, hf⟩

theorem labels_afterScan_of_plain {context next : Context} {line : Nat} {scan : Scan}
    (hplain : scan.Plain) (hf : context.Fresh False)
    (h : context.afterScan line scan = .ok next) :
    next.labels = context.labels ∧ next.Fresh False := by
  cases hplain with
  | one => exact labels_afterScan rfl hf h
  | string => exact labels_afterScan rfl hf h
  | @enter lexemes rest closer _ hlabel =>
    cases h
    refine ⟨?_, fun ⟨label, hcloser⟩ => absurd hcloser (hlabel label), hf⟩
    cases closer with
    | doubleQuote | backtick => rfl
    | label label => exact absurd rfl (hlabel label)

theorem Carries.of_weightless {before : List Lexeme} {context : Context} {step : Step}
    (h : Encloses context.labels before) (hall : ∀ lexeme ∈ step.lexemes, lexeme.heredocs = 0)
    (hlabels : step.context.labels = context.labels) (hf : step.context.Fresh False) :
    Carries before step :=
  ⟨⟨hlabels ▸ h.append (.of_weightless hall), hf.imp False.elim⟩, .of_weightless hall⟩

section Steps

variable {context : Context} {before : List Lexeme} {line : Nat} {previous : Option Kind}
  {cs : List Char} {next : Step}

/-- The opening line of a heredoc, or the whole of a nowdoc. -/
theorem heredoc_carries {scan : Scan} {context' : Context} (h : Encloses context.labels before)
    (hf : context.Fresh False) (hs : Heredoc.rule previous cs = some (.ok scan))
    (hnext : context.afterScan line scan = .ok context') :
    Carries before ⟨scan.lexemes, scan.rest, context'⟩ := by
  obtain ⟨header, hheader, hcases⟩ := Heredoc.rule_cases hs
  have hopens : Lexeme.Opens header.label ⟨.grammar .startHeredoc, header.text⟩ :=
    ⟨rfl, Heredoc.header?_isName hheader, Heredoc.written_header? hheader⟩
  have hopen := h.open hopens
  obtain ⟨front, hfront⟩ := Heredoc.header?_text hheader
  have hline : (Lexeme.spell (before ++ [⟨.grammar .startHeredoc, header.text⟩])).getLast?
      = some '\n' := by simp [hfront]
  have hstart : AllClose before [⟨.grammar .startHeredoc, header.text⟩] := ⟨nofun, trivial⟩
  rcases hcases with rfl | ⟨body, line, closing, hbody, hclosing, rfl⟩
  · cases hnext
    exact ⟨⟨hopen, fun _ _ => hline, hf⟩, hstart⟩
  · obtain ⟨hlabels, hfresh⟩ := labels_afterScan rfl hf hnext
    have hend := getLast?_of_lineStart (fun _ => hline) (Heredoc.lineStart_of_untilClose? hbody)
    obtain ⟨hencloses, hcloses⟩ :=
      hopen.close_line (Heredoc.dropWhile_of_closeAt? hopens.isName hclosing) hend
    refine ⟨⟨?_, hfresh.imp False.elim⟩, ?_⟩
    · rw [hlabels]
      simpa using hencloses
    · simpa using hstart.append hcloses

theorem stepCode_carries (h : Encloses context.labels before) (hf : context.Fresh False)
    (htag : ∀ next, context.afterTag = .ok next → next.labels = context.labels ∧ next.Fresh False)
    (hne : cs ≠ []) (hs : context.stepCode line previous cs = .ok next) : Carries before next := by
  obtain ⟨scan, context', hscan, hnext, rfl⟩ := exists_scan_of_stepCode hs
  rcases Code.scan_cases hne hscan with hplain | hheredoc | ⟨hleave, text, htext⟩
  · have hall : ∀ lexeme ∈ scan.lexemes, lexeme.heredocs = 0 := fun lexeme hmem =>
      Lexeme.heredocs_of_class (hplain.isPlain lexeme hmem) rfl rfl
    obtain ⟨hlabels, hfresh⟩ := labels_afterScan_of_plain hplain hf hnext
    exact .of_weightless h hall hlabels hfresh
  · exact heredoc_carries h hf hheredoc hnext
  · rw [afterScan, hleave] at hnext
    obtain ⟨hlabels, hfresh⟩ := htag _ hnext
    refine .of_weightless h ?_ hlabels hfresh
    rw [htext]
    simp [Lexeme.heredocs]

theorem stepBody_carries {closer : Closer} {opened : Nat} {fresh : Bool} {outer : Context}
    (h : (body closer opened fresh outer).Follows before)
    (hs : stepBody closer opened fresh outer line cs = .ok next) : Carries before next := by
  obtain ⟨text, event, hseek, rfl⟩ := exists_seek_of_stepBody hs
  have hliteral : ∀ lexeme ∈ Lexeme.ofText .literal text, lexeme.heredocs = 0 :=
    fun lexeme hmem => (neutral_of_mem_literal text lexeme hmem).heredocs
  cases event with
  | close lexemes rest =>
    obtain ⟨quote, rfl, hquote, hlabel⟩ | ⟨label, closing, rfl, rfl⟩ := Body.close_lexemes hseek
    · refine .of_weightless h.encloses (List.forall_mem_append.2 ⟨hliteral, ?_⟩) ?_ h.fresh.2
      · simpa [Body.Event.lexemes] using hquote.heredocs
      · cases closer with
        | doubleQuote | backtick => rfl
        | label label => exact absurd rfl (hlabel label)
    · obtain ⟨line, found, -, hclose, heq, -, hstart⟩ := Body.lineStart_of_seek hseek
      cases heq
      have hend := getLast?_of_lineStart (h.fresh.1 ⟨label, rfl⟩) hstart
      obtain ⟨hencloses, hcloses⟩ := Encloses.close_line h.encloses
        (Heredoc.dropWhile_of_closeAt? h.encloses.isName hclose) hend
      exact ⟨⟨hencloses, h.fresh.2.imp False.elim⟩, hcloses⟩
  | splice lexemes rest =>
    refine .of_weightless h.encloses (List.forall_mem_append.2 ⟨hliteral, ?_⟩) ?_ ?_
    · exact fun lexeme hmem => (Body.splice_neutral hseek lexeme hmem).heredocs
    · cases closer <;> rfl
    · exact ⟨fun _ hfresh => absurd hfresh Bool.false_ne_true, h.fresh.2⟩
  | hole lexemes rest =>
    obtain ⟨opener, name, rfl, hopener, hname⟩ := Body.hole_lexemes hseek
    refine .of_weightless h.encloses (List.forall_mem_append.2 ⟨hliteral, ?_⟩) ?_ ?_
    · refine List.forall_mem_cons.2 ⟨Lexeme.heredocs_of_class hopener rfl rfl, ?_⟩
      exact fun lexeme hmem => (hname lexeme hmem).heredocs
    · cases closer <;> rfl
    · exact ⟨fun _ hfresh => absurd hfresh Bool.false_ne_true, h.fresh.2⟩

/-- What one step carries on. -/
theorem step_carries (h : context.Follows before) (hne : cs ≠ [])
    (hs : context.step line previous cs = .ok next) : Carries before next := by
  cases context with
  | html =>
    cases hs
    refine .of_weightless h.encloses (fun lexeme hmem => ?_) ?_ ?_
    · exact Lexeme.heredocs_of_class (p := fun kind => !kind.isInside)
        (by simp [stepHtml_outside cs lexeme hmem]) rfl rfl
    · unfold stepHtml
      split <;> rfl
    · unfold stepHtml
      split <;> trivial
  | data =>
    cases hs
    exact .of_weightless h.encloses (by simp [Lexeme.heredocs]) rfl trivial
  | code =>
    refine stepCode_carries h.encloses trivial (fun context hnext => ?_) hne hs
    cases hnext
    exact ⟨rfl, trivial⟩
  | halting =>
    refine stepCode_carries h.encloses trivial (fun context hnext => ?_) hne hs
    cases hnext
    exact ⟨rfl, trivial⟩
  | hole => exact stepCode_carries h.encloses h.fresh nofun hne hs
  | body => exact stepBody_carries h hs

end Steps

end Context

/-- What a whole reading carries on: at its end nothing is open. -/
theorem Reads.heredocs {state : State} {lexemes : List Lexeme} (h : Reads state lexemes)
    {before : List Lexeme} (hf : state.context.Follows before) :
    Settles Lexeme.heredocs 0 (before ++ lexemes) ∧ AllClose before lexemes := by
  induction h generalizing before with
  | @done state _ hfinish =>
    have hnone : state.context.labels = [] := by
      cases hcontext : state.context with
      | html | code | halting | data => rfl
      | body | hole =>
        rw [hcontext] at hfinish
        cases hfinish
    have hencloses := hf.encloses
    rw [hnone] at hencloses
    rw [List.append_nil]
    exact ⟨hencloses, trivial⟩
  | step hne hstep _ ih =>
    obtain ⟨hfollows, hcloses⟩ := Context.step_carries hf hne hstep
    obtain ⟨hsettles, hafter⟩ := ih hfollows
    exact ⟨by simpa using hsettles, hcloses.append hafter⟩

end Lexer

/-- **Heredocs nest**: the lexemes that open and close them are balanced. Each that closes one
stands where a line begins, and but for its blanks it is the label that was written in the one that
opened it: between the two all that was opened is closed. -/
theorem tokenize_heredocs_nest {source : String} {tokens : List Token}
    (h : tokenize source = .ok tokens) :
    Balanced Lexeme.heredocs (tokens.map Token.lexeme)
      ∧ ∀ before closing after, tokens = before ++ closing :: after →
        closing.kind = .grammar .endHeredoc →
        (∃ front opening inside, before = front ++ opening :: inside
            ∧ opening.kind = .grammar .startHeredoc
            ∧ Balanced Lexeme.heredocs (inside.map Token.lexeme)
            ∧ closing.text.toList.dropWhile isBlank
              = Lexer.Heredoc.written opening.text.toList)
          ∧ ∃ line, source.toList = Token.spell before ++ line
            ∧ (Token.spell before).getLast? = some '\n' := by
  have hspell := spell_tokenize h
  obtain ⟨lexemes, hreads, rfl⟩ := Lexer.reads_of_tokenize h
  have hstart : (Lexer.State.start source.toList).context.Follows [] := ⟨.nil, trivial⟩
  obtain ⟨hsettles, hcloses⟩ := hreads.heredocs hstart
  refine ⟨by simpa [Token.map_lexeme_place] using hsettles.balanced, ?_⟩
  intro before closing after htokens hkind
  rw [← Token.map_lexeme_place 1 lexemes, htokens, List.map_append, List.map_cons] at hcloses
  obtain ⟨front, opening, inside, hsplit, hopening, hinside, hlabel, hline⟩ := hcloses.apply hkind
  rw [List.nil_append] at hsplit hline
  obtain ⟨front, more, rfl, rfl, hmore⟩ := List.map_eq_append_iff.1 hsplit
  obtain ⟨opening, inside, rfl, rfl, rfl⟩ := List.map_eq_cons_iff.1 hmore
  refine ⟨⟨front, opening, inside, rfl, hopening, hinside, hlabel⟩,
    Token.spell (closing :: after), ?_, ?_⟩
  · rw [← hspell, htokens, Token.spell_append]
  · rwa [Token.spell_map_lexeme] at hline

/-- A heredoc in a heredoc with the same label, and in that a line that only begins with it. -/
theorem tokenize_heredocs_nest_inner :
    ∃ before after, tokenize "<?php <<<A\n\x7b$f(<<<\"A\"\nAB\n\tA)\x7d\n A;"
        = .ok (before ++ ⟨.grammar .endHeredoc, " A", 5⟩ :: after)
      ∧ Balanced Lexeme.heredocs
        ((before ++ ⟨.grammar .endHeredoc, " A", 5⟩ :: after).map Token.lexeme)
      ∧ (∃ front opening inside, before = front ++ opening :: inside
          ∧ opening.kind = .grammar .startHeredoc
          ∧ Balanced Lexeme.heredocs (inside.map Token.lexeme)
          ∧ ['A'] = Lexer.Heredoc.written opening.text.toList)
      ∧ (Token.spell before).getLast? = some '\n' := by
  have h : (tokenize "<?php <<<A\n\x7b$f(<<<\"A\"\nAB\n\tA)\x7d\n A;").toOption = some
      ([⟨.tag .open_, "<?php ", 1⟩, ⟨.grammar .startHeredoc, "<<<A\n", 1⟩,
          ⟨.grammar .curlyOpen, "\x7b", 2⟩, ⟨.variable_, "$f", 2⟩, ⟨.punct, "(", 2⟩,
          ⟨.grammar .startHeredoc, "<<<\"A\"\n", 2⟩, ⟨.literal, "AB\n", 3⟩,
          ⟨.grammar .endHeredoc, "\tA", 4⟩, ⟨.punct, ")", 4⟩, ⟨.punct, "\x7d", 4⟩,
          ⟨.literal, "\n", 4⟩] ++ ⟨.grammar .endHeredoc, " A", 5⟩ :: [⟨.punct, ";", 5⟩]) := by
    decide +kernel
  have h := Lexer.tokenize_of_toOption h
  obtain ⟨hbalanced, hcloses⟩ := tokenize_heredocs_nest h
  obtain ⟨hmatch, line, -, hline⟩ := hcloses _ _ _ rfl rfl
  exact ⟨_, _, h, hbalanced, hmatch, hline⟩

end Listing
