import Mathlib.Data.List.Induction
import Listing.Proofs.Braces
import Listing.Proofs.Shapes

/-!
# A halt ends the program

A program goes through phases (`Phase`): it runs until a halt is read outside of all holes, then on
to the end of that statement, and then it is over. What is over has one piece of text left at most
(`Stops`).

Only lexemes outside of all holes count, those behind which no brace is open from an outermost hole
on. A lexeme at a greater height stands in a hole in the plain sense (`Lexeme.InHole`): the mark
that opens it comes before, the brace that closes it behind, and between these two braces balance.
That the reader comes to the closing brace is known from `Reads.counts`; the way up to the lexeme is
`exists_opener`.

What a step does is `Context.step_continues`. In a string all lexemes are quiet (`Lexeme.Quiet`), so
a semicolon there ends nothing.
-/

namespace Listing

open Text

/-! ## Holes -/

namespace Lexeme

/-- How many braces are open behind a lexeme, from the outermost hole on. -/
def heightAfter (height : Nat) (lexeme : Lexeme) : Nat :=
  match height with
  | 0 => if lexeme.kind.opensHole then 1 else 0
  | height + 1 => (((height + 1 : Nat) : Int) + lexeme.braces).toNat

/-- A lexeme between others stands in a hole: before it there is a mark that opens one and behind it
a brace, and between these two the braces balance. -/
def InHole (before : List Lexeme) (lexeme : Lexeme) (after : List Lexeme) : Prop :=
  ∃ front opener inside more brace rest, before = front ++ opener :: inside
    ∧ after = more ++ brace :: rest ∧ opener.kind.opensHole = true
    ∧ brace.isPunct '\x7d' = true ∧ Balanced braces (inside ++ lexeme :: more)

theorem InHole.exists_opener_mem {before after : List Lexeme} {lexeme : Lexeme}
    (h : lexeme.InHole before after) : ∃ opener ∈ before, opener.kind.opensHole = true := by
  obtain ⟨front, opener, inside, more, brace, rest, rfl, -, hopen, -⟩ := h
  exact ⟨opener, by simp, hopen⟩

theorem InHole.exists_brace_mem {before after : List Lexeme} {lexeme : Lexeme}
    (h : lexeme.InHole before after) : ∃ brace ∈ after, brace.isPunct '\x7d' = true := by
  obtain ⟨front, opener, inside, more, brace, rest, -, rfl, -, hclose, -⟩ := h
  exact ⟨brace, by simp, hclose⟩

theorem heightAfter_of_braces {lexeme : Lexeme} (h : lexeme.braces = 0) (height : Nat) :
    lexeme.heightAfter height = height := by
  cases height with
  | zero => rw [heightAfter, opensHole_of_braces h, if_neg Bool.false_ne_true]
  | succ height =>
    rw [heightAfter, h]
    omega

theorem heightAfter_of_opensHole {lexeme : Lexeme} (h : lexeme.kind.opensHole = true)
    (height : Nat) : lexeme.heightAfter height = height + 1 := by
  cases height with
  | zero => rw [heightAfter, h, if_pos rfl]
  | succ height =>
    rw [heightAfter, braces_of_opensHole h]
    omega

/-- On the way up from the outermost hole braces settle, if they do so from the height that is
reached. -/
theorem exists_opener {before : List Lexeme} {height : Nat}
    (h : before.foldl heightAfter 0 = height + 1) :
    ∃ front opener inside, before = front ++ opener :: inside ∧ opener.kind.opensHole = true
      ∧ ∀ tail, Settles braces height tail → Settles braces 0 (inside ++ tail) := by
  induction before using List.reverseRecOn generalizing height with
  | nil => cases h
  | append_singleton before last ih =>
    rw [List.foldl_append, List.foldl_cons, List.foldl_nil] at h
    cases hbefore : before.foldl heightAfter 0 with
    | zero =>
      rw [hbefore, heightAfter] at h
      split at h
      · next hopen =>
        obtain rfl : height = 0 := by omega
        exact ⟨before, last, [], rfl, hopen, fun tail htail => htail⟩
      · cases h
    | succ level =>
      rw [hbefore, heightAfter] at h
      obtain ⟨front, opener, inside, rfl, hopen, hsettles⟩ := ih hbefore
      refine ⟨front, opener, inside ++ [last], by simp, hopen, fun tail htail => ?_⟩
      rw [List.append_assoc]
      apply hsettles
      refine .cons (by omega) ?_
      have hlevel : (level : Int) + last.braces = height := by omega
      rw [hlevel]
      exact htail

end Lexeme

namespace Counts

variable {n : Nat} {lexeme : Lexeme} {before after : List Lexeme}

theorem tail (h : Counts n (lexeme :: after)) : Counts (lexeme.heightAfter n) after := by
  cases h with
  | outside hnot hafter => rwa [Lexeme.heightAfter, hnot, if_neg Bool.false_ne_true]
  | opening hopen hafter => rwa [Lexeme.heightAfter, hopen, if_pos rfl]
  | @inside n m _ _ _ hm hafter =>
    rw [Lexeme.heightAfter, ← hm, Int.toNat_natCast]
    exact hafter

theorem drop (h : Counts n (before ++ after)) :
    Counts (before.foldl Lexeme.heightAfter n) after := by
  induction before generalizing n with
  | nil => exact h
  | cons first before ih => exact ih h.tail

/-- What stands in no hole stands where no brace is open. -/
theorem height_eq_zero (h : Counts 0 (before ++ lexeme :: after))
    (hbrace : lexeme.isPunct '\x7d' = false) (hout : ¬lexeme.InHole before after) :
    before.foldl Lexeme.heightAfter 0 = 0 := by
  cases hheight : before.foldl Lexeme.heightAfter 0 with
  | zero => rfl
  | succ height =>
    refine absurd ?_ hout
    obtain ⟨front, opener, inside, rfl, hopen, hup⟩ := Lexeme.exists_opener hheight
    have hrest := h.drop
    rw [hheight] at hrest
    obtain ⟨more, brace, rest, hsplit, hclose, hdown, -⟩ := hrest.exists_closing 0 height (by omega)
    cases more with
    | nil =>
      cases hsplit
      rw [hbrace] at hclose
      cases hclose
    | cons first more =>
      cases hsplit
      exact ⟨front, opener, inside, more, brace, rest, rfl, rfl, hopen, hclose,
        (hup _ hdown).balanced⟩

end Counts

/-! ## Phases -/

/-- How far a program has come: it runs, or it was halted and its last statement goes on, or that
statement has ended. -/
inductive Phase where
  | running
  | halting
  | ended
  deriving DecidableEq, Repr

namespace Lexeme

/-- The lexeme ends a statement. -/
def endsStatement (lexeme : Lexeme) : Bool :=
  lexeme.isPunct ';' || lexeme.kind == .tag .close

theorem of_endsStatement {lexeme : Lexeme} (h : lexeme.endsStatement = true) :
    lexeme.isPunct '\x7d' = false ∧ lexeme.kind ≠ .html := by
  simp only [endsStatement, isPunct, Bool.or_eq_true, Bool.and_eq_true, beq_iff_eq] at h ⊢
  rcases h with ⟨hkind, htext⟩ | hkind
  · simp [hkind, htext]
  · simp [hkind]

/-- The lexeme neither halts a program nor ends a statement. -/
structure Idle (lexeme : Lexeme) : Prop where
  not_halt : lexeme.kind ≠ .haltCompiler
  not_end : lexeme.endsStatement = false

/-- The lexeme is idle and no brace. -/
structure Quiet (lexeme : Lexeme) : Prop extends lexeme.Idle where
  braces : lexeme.braces = 0

end Lexeme

/-- The phase behind a lexeme at a height. -/
def Phase.after (phase : Phase) (height : Nat) (lexeme : Lexeme) : Phase :=
  match height, phase with
  | 0, .running => if lexeme.kind = .haltCompiler then .halting else .running
  | 0, .halting => if lexeme.endsStatement then .ended else .halting
  | _, phase => phase

/-- The runs of lexemes from a phase and a height on: once the program is over, one piece of text
follows at most. -/
def Stops (phase : Phase) (height : Nat) : List Lexeme → Prop
  | [] => True
  | lexeme :: after =>
    (phase = .ended → lexeme.kind = .html ∧ after = [])
      ∧ Stops (phase.after height lexeme) (lexeme.heightAfter height) after

/-- Kinds of lexemes that are quiet whatever their text. -/
def Kind.isQuiet (kind : Kind) : Bool :=
  kind != .punct && kind != .haltCompiler && kind != .tag .close && !kind.opensHole

namespace Lexeme

theorem Quiet.of_kind {kind : Kind} (h : kind.isQuiet = true) (text : List Char) :
    Quiet ⟨kind, text⟩ := by
  simp only [Kind.isQuiet, Bool.and_eq_true, bne_iff_ne, Bool.not_eq_true'] at h
  obtain ⟨⟨⟨hpunct, hhalt⟩, htag⟩, hopen⟩ := h
  exact ⟨⟨hhalt, by simp [endsStatement, isPunct, hpunct, htag]⟩,
    by simp [Lexeme.braces, isPunct, hpunct, hopen]⟩

theorem Quiet.punct {text : List Char} (h : ∀ c ∈ [';', '\x7b', '\x7d'], text ≠ [c]) :
    Quiet ⟨.punct, text⟩ := by
  simp only [List.forall_mem_cons] at h
  obtain ⟨hend, hopen, hclose, -⟩ := h
  exact ⟨⟨nofun, by simp [endsStatement, isPunct, hend]⟩,
    by simp [Lexeme.braces, isPunct, hopen, hclose, Kind.opensHole]⟩

theorem Idle.of_opensHole {lexeme : Lexeme} (h : lexeme.kind.opensHole = true) : lexeme.Idle := by
  unfold Kind.opensHole at h
  split at h
  · next hkind => exact ⟨by simp [hkind], by rw [endsStatement, isPunct, hkind]; rfl⟩
  · next hkind => exact ⟨by simp [hkind], by rw [endsStatement, isPunct, hkind]; rfl⟩
  · cases h

theorem Idle.phase_after {lexeme : Lexeme} (h : lexeme.Idle) (phase : Phase) (height : Nat) :
    phase.after height lexeme = phase := by
  unfold Phase.after
  split
  · exact if_neg h.not_halt
  · rw [h.not_end, if_neg Bool.false_ne_true]
  · rfl

end Lexeme

namespace Stops

variable {phase : Phase} {height : Nat} {lexemes after : List Lexeme}

theorem of_quiet (hphase : phase ≠ .ended) (hquiet : ∀ lexeme ∈ lexemes, lexeme.Quiet)
    (h : Stops phase height after) : Stops phase height (lexemes ++ after) := by
  induction lexemes with
  | nil => exact h
  | cons lexeme lexemes ih =>
    rw [List.forall_mem_cons] at hquiet
    refine ⟨fun hended => absurd hended hphase, ?_⟩
    rw [hquiet.1.phase_after, Lexeme.heightAfter_of_braces hquiet.1.braces]
    exact ih hquiet.2

theorem of_opensHole {opener : Lexeme} (hphase : phase ≠ .ended)
    (hopen : opener.kind.opensHole = true) (h : Stops phase (height + 1) after) :
    Stops phase height (opener :: after) := by
  refine ⟨fun hended => absurd hended hphase, ?_⟩
  rw [(Lexeme.Idle.of_opensHole hopen).phase_after, Lexeme.heightAfter_of_opensHole hopen]
  exact h

end Stops

namespace Lexer

/-! ## Inside strings all is quiet -/

theorem Quoted.IsOpening.quiet {quote : Char} {text : List Char} (h : IsOpening quote text) :
    Lexeme.Quiet ⟨.punct, text⟩ := by
  obtain ⟨hquote, mark, -, rfl⟩ := h
  apply Lexeme.Quiet.punct
  intro c hc heq
  have hlast : quote = c := by simpa using congrArg List.getLast? heq
  subst hlast
  rcases hquote with rfl | rfl | rfl <;> exact absurd hc (by decide)

theorem Quoted.IsOpening.quiet_plain {quote : Char} {opening : List Char}
    (h : IsOpening quote opening) (body : List Char) :
    ∀ lexeme ∈ plain opening body quote, lexeme.Quiet := by
  have hclosing : Lexeme.Quiet ⟨.punct, [quote]⟩ := IsOpening.quiet ⟨h.1, [], .inl rfl, rfl⟩
  unfold plain
  split
  · simp only [List.forall_mem_cons]
    exact ⟨h.quiet, .of_kind rfl body, hclosing, nofun⟩
  · exact List.forall_mem_singleton.2 (.of_kind rfl _)

namespace Body

theorem access_quiet (cs : List Char) : ∀ lexeme ∈ (access cs).1, lexeme.Quiet := by
  obtain hnone | ⟨inside, kind, text, hkey, hoffset⟩ | ⟨kind, arrow, name, hkind, -, hmember, -⟩ :=
    access_cases cs
  · rw [hnone]
    nofun
  · have hquiet : Lexeme.Quiet ⟨kind, text⟩ := by
      rcases key?_cases hkey with ⟨rfl, -⟩ | rfl | rfl <;> exact .of_kind rfl text
    rw [hoffset]
    simp only [List.forall_mem_cons]
    exact ⟨.punct (by simp), hquiet, .punct (by simp), nofun⟩
  · rw [hmember]
    simp only [List.forall_mem_cons]
    refine ⟨?_, .of_kind rfl _, nofun⟩
    rcases hkind with rfl | rfl <;> exact .of_kind rfl arrow

end Body

namespace Context

/-! ## Contexts and phases -/

/-- The program is in this phase where the reader is in the context. Strings nest in a program that
is not over. -/
def InPhase (phase : Phase) : Context → Prop
  | .html | .code => phase = .running
  | .halting => phase = .halting
  | .data => phase = .ended
  | .body _ _ _ outer | .hole _ _ outer => phase ≠ .ended ∧ outer.InPhase phase

/-- The step leads on to a phase, and what stops from there on stops with its lexemes in front. -/
def Continues (phase : Phase) (height : Nat) (step : Step) : Prop :=
  ∃ next, step.context.InPhase next ∧ ∀ after, (step.rest = [] → after = []) →
    Stops next step.context.height after → Stops phase height (step.lexemes ++ after)

theorem InPhase.ne_ended {context : Context} {phase : Phase} (h : context.InPhase phase)
    (hcode : context.ReadsCode) : phase ≠ .ended := by
  cases context with
  | html | data | body => exact hcode.elim
  | code =>
    rw [show phase = .running from h]
    nofun
  | halting =>
    rw [show phase = .halting from h]
    nofun
  | hole => exact h.1

/-- A token of code does to the context what it does to phase and height. -/
theorem InPhase.afterLexeme {context : Context} {phase : Phase} (h : context.InPhase phase)
    (hcode : context.ReadsCode) {last : Lexeme} (hopen : last.kind.opensHole = false)
    (htag : last.kind ≠ .tag .close) :
    (context.afterLexeme last).InPhase (phase.after context.height last)
      ∧ (context.afterLexeme last).height = last.heightAfter context.height := by
  have hzero : last.heightAfter 0 = 0 := by
    rw [Lexeme.heightAfter, hopen, if_neg Bool.false_ne_true]
  cases context with
  | html | data | body => exact hcode.elim
  | code =>
    obtain rfl : phase = .running := h
    simp only [height, Context.afterLexeme, Phase.after, hzero]
    split <;> exact ⟨rfl, rfl⟩
  | halting =>
    obtain rfl : phase = .halting := h
    have hend : last.endsStatement = last.isPunct ';' := by
      simp [Lexeme.endsStatement, htag]
    simp only [height, Context.afterLexeme, Phase.after, hzero, hend]
    split <;> exact ⟨rfl, rfl⟩
  | hole depth opened outer =>
    have hheight := height_afterLexeme depth opened outer hopen
    refine ⟨?_, ?_⟩
    · show ((hole depth opened outer).afterLexeme last).InPhase phase
      simp only [Context.afterLexeme]
      split
      · exact h
      · split
        · split
          · exact h.2
          · exact h
        · exact h
    · show _ = (((outer.height + depth + 1 : Nat) : Int) + last.braces).toNat
      simp only [height] at hheight
      omega

section Steps

variable {context : Context} {phase : Phase} {line : Nat} {previous : Option Kind}
  {cs : List Char} {next : Step}

/-- Quiet lexemes in front of the same phase and height. -/
theorem Continues.of_quiet {height : Nat} (hphase : phase ≠ .ended)
    (hquiet : ∀ lexeme ∈ next.lexemes, lexeme.Quiet) (hin : next.context.InPhase phase)
    (hheight : next.context.height = height) : Continues phase height next :=
  ⟨phase, hin, fun _ _ hafter => (hheight ▸ hafter).of_quiet hphase hquiet⟩

/-- One lexeme of code. -/
theorem Continues.one (h : context.InPhase phase) (hcode : context.ReadsCode) {last : Lexeme}
    (hplain : last.kind.isPlain = true) (rest : List Char) :
    Continues phase context.height ⟨[last], rest, context.afterLexeme last⟩ := by
  obtain ⟨hin, hheight⟩ :=
    h.afterLexeme hcode (Kind.opensHole_of_isPlain hplain) (Lexeme.ne_closeTag_of_isPlain hplain)
  refine ⟨_, hin, fun after _ hafter => ⟨fun hended => absurd hended (h.ne_ended hcode), ?_⟩⟩
  rw [← hheight]
  exact hafter

theorem afterLexeme_of_quiet (context : Context) {last : Lexeme} (h : last.Quiet) :
    context.afterLexeme last = context := by
  have hend := (Bool.or_eq_false_iff.1 h.not_end).1
  have hbraces := h.braces
  unfold Lexeme.braces at hbraces
  unfold afterLexeme
  split
  · exact if_neg h.not_halt
  · rw [hend, if_neg Bool.false_ne_true]
  · split at hbraces
    · cases hbraces
    · next hopen =>
      rw [Bool.or_eq_true, not_or] at hopen
      split at hbraces
      · cases hbraces
      · next hclose => rw [if_neg hopen.2, if_neg hclose]
  · rfl

theorem afterScan_of_quiet {scan : Scan} (hturn : scan.turn = .stay)
    (hquiet : ∀ lexeme ∈ scan.lexemes, lexeme.Quiet) {context' : Context}
    (h : context.afterScan line scan = .ok context') : context' = context := by
  obtain ⟨hleave, -⟩ | ⟨closer, henter, -⟩ | ⟨-, last, hlast, rfl⟩ | ⟨-, rfl⟩ := afterScan_cases h
  · rw [hturn] at hleave
    cases hleave
  · rw [hturn] at henter
    cases henter
  · exact afterLexeme_of_quiet context (hquiet last (List.mem_of_getLast? hlast))
  · rfl

theorem Continues.closeTag (h : context.InPhase phase) (hcode : context.ReadsCode)
    {context' : Context} (hafter : context.afterTag = .ok context') (text rest : List Char) :
    Continues phase context.height ⟨[⟨.tag .close, text⟩], rest, context'⟩ := by
  cases context with
  | html | data | body => exact hcode.elim
  | code =>
    obtain rfl : phase = .running := h
    cases hafter
    exact ⟨.running, rfl, fun _ _ hstops => ⟨nofun, hstops⟩⟩
  | halting =>
    obtain rfl : phase = .halting := h
    cases hafter
    exact ⟨.ended, rfl, fun _ _ hstops => ⟨nofun, hstops⟩⟩
  | hole => cases hafter

theorem stepCode_continues (h : context.InPhase phase) (hcode : context.ReadsCode) (hne : cs ≠ [])
    (hs : context.stepCode line previous cs = .ok next) :
    Continues phase context.height next := by
  have hphase := h.ne_ended hcode
  obtain ⟨scan, context', hscan, hafter, rfl⟩ := exists_scan_of_stepCode hs
  cases Code.scan_shape hne hscan with
  | gap =>
    cases hafter
    exact .one h hcode rfl _
  | word hword =>
    obtain ⟨-, rfl | ⟨tail, rest, -, rfl⟩ | ⟨-, rfl⟩⟩ := Word.rule_cases hword
    · cases hafter
      exact .one h hcode (Word.kindAfter_isPlain _ _) _
    · cases hafter
      exact .one h hcode rfl rest
    · cases hafter
      exact .one h hcode rfl _
  | number hnumber =>
    obtain ⟨-, kind, text, rest, rfl | rfl, rfl⟩ := Number.rule_cases hnumber
    all_goals
      cases hafter
      exact .one h hcode rfl rest
  | sign hsign =>
    obtain ⟨-, kind, text, rest, hkind, rfl⟩ := hsign
    cases hafter
    exact .one h hcode (Kind.isPlain_of_isSign hkind) rest
  | @string quote opening body rest hopening =>
    have hquiet := hopening.quiet_plain body
    obtain rfl := afterScan_of_quiet rfl hquiet hafter
    exact .of_quiet hphase hquiet h rfl
  | enter hopening =>
    cases hafter
    exact .of_quiet hphase (List.forall_mem_singleton.2 hopening.quiet) ⟨hphase, h⟩ rfl
  | heredoc =>
    cases hafter
    exact .of_quiet hphase (List.forall_mem_singleton.2 (.of_kind rfl _)) ⟨hphase, h⟩ rfl
  | @nowdoc header body closing rest =>
    have hquiet : ∀ lexeme ∈ ⟨.grammar .startHeredoc, header.text⟩ :: Lexeme.ofText .literal body
        ++ [⟨.grammar .endHeredoc, closing⟩], lexeme.Quiet := by
      simp only [List.forall_mem_append, List.forall_mem_cons, List.cons_append]
      exact ⟨.of_kind rfl _, Lexeme.forall_mem_ofText (.of_kind rfl body), .of_kind rfl closing,
        nofun⟩
    obtain rfl := afterScan_of_quiet rfl hquiet hafter
    exact .of_quiet hphase hquiet h rfl
  | leave _ => exact .closeTag h hcode hafter _ _

theorem stepHtml_continues (cs : List Char) : Continues .running 0 (stepHtml cs) := by
  unfold stepHtml
  split
  · next tag rest htag =>
    have hquiet : tag.Quiet := by
      obtain ⟨kind, text⟩ := tag
      rcases Markup.openTag?_kind htag with rfl | rfl <;> exact .of_kind rfl text
    refine .of_quiet nofun ?_ rfl rfl
    exact List.forall_mem_append.2
      ⟨Lexeme.forall_mem_ofText (.of_kind rfl _), List.forall_mem_singleton.2 hquiet⟩
  · exact .of_quiet nofun (List.forall_mem_singleton.2 (.of_kind rfl cs)) rfl rfl

theorem stepBody_continues {closer : Closer} {opened : Nat} {fresh : Bool} {outer : Context}
    (h : (body closer opened fresh outer).InPhase phase)
    (hs : stepBody closer opened fresh outer line cs = .ok next) :
    Continues phase (body closer opened fresh outer).height next := by
  obtain ⟨hphase, houter⟩ := h
  obtain ⟨text, event, hseek, rfl⟩ := exists_seek_of_stepBody hs
  have hliteral : ∀ lexeme ∈ Lexeme.ofText .literal text, lexeme.Quiet :=
    Lexeme.forall_mem_ofText (.of_kind rfl text)
  cases Body.seek_shape hseek with
  | @quote mark rest hmark =>
    have hquote : Quoted.IsOpening mark [mark] := ⟨.inr hmark, [], .inl rfl, rfl⟩
    refine .of_quiet hphase ?_ houter rfl
    exact List.forall_mem_append.2 ⟨hliteral, List.forall_mem_singleton.2 hquote.quiet⟩
  | label =>
    refine .of_quiet hphase ?_ houter rfl
    exact List.forall_mem_append.2 ⟨hliteral, List.forall_mem_singleton.2 (.of_kind rfl _)⟩
  | @splice name after =>
    refine .of_quiet hphase ?_ ⟨hphase, houter⟩ rfl
    exact List.forall_mem_append.2
      ⟨hliteral, List.forall_mem_cons.2 ⟨.of_kind rfl _, Body.access_quiet after⟩⟩
  | @dollarBrace name rest hname =>
    have hquiet : ∀ lexeme ∈ name, lexeme.Quiet := by
      rcases hname with rfl | ⟨braced, rfl⟩
      · nofun
      · exact List.forall_mem_singleton.2 (.of_kind rfl braced)
    refine ⟨phase, ⟨hphase, hphase, houter⟩, fun after _ hafter => ?_⟩
    rw [List.append_assoc]
    exact .of_quiet hphase hliteral (.of_opensHole hphase rfl (.of_quiet hphase hquiet hafter))
  | brace =>
    refine ⟨phase, ⟨hphase, hphase, houter⟩, fun after _ hafter => ?_⟩
    rw [List.append_assoc]
    exact .of_quiet hphase hliteral (.of_opensHole hphase rfl hafter)

/-- What one step keeps. -/
theorem step_continues (h : context.InPhase phase) (hne : cs ≠ [])
    (hs : context.step line previous cs = .ok next) : Continues phase context.height next := by
  obtain ⟨rfl, rfl⟩ | ⟨rfl, rfl⟩ | ⟨hcode, hs⟩ | ⟨closer, opened, fresh, outer, rfl, hs⟩ :=
    step_cases hs
  · obtain rfl : phase = .running := h
    exact stepHtml_continues cs
  · obtain rfl : phase = .ended := h
    refine ⟨.ended, rfl, fun after hlast _ => ?_⟩
    rw [hlast rfl]
    exact ⟨fun _ => ⟨rfl, rfl⟩, trivial⟩
  · exact stepCode_continues h hcode hne hs
  · exact stepBody_continues h hs

end Steps

end Context

/-- What a whole reading keeps. -/
theorem Reads.stops {state : State} {lexemes : List Lexeme} (h : Reads state lexemes)
    {phase : Phase} (hin : state.context.InPhase phase) :
    Stops phase state.context.height lexemes := by
  induction h generalizing phase with
  | done => trivial
  | step hne hstep hrest ih =>
    obtain ⟨next, hnext, hcontinues⟩ := Context.step_continues hin hne hstep
    refine hcontinues _ ?_ (ih hnext)
    -- A step that has used up the source is the last.
    intro hend
    cases hrest with
    | done => rfl
    | step hne => exact absurd hend hne

end Lexer

/-! ## Behind a halt -/

namespace Stops

variable {phase : Phase} {height : Nat} {front after : List Lexeme} {lexeme : Lexeme}

/-- A program that was halted does not run again. -/
theorem exists_drop (h : Stops phase height (front ++ after)) :
    ∃ next, Stops next (front.foldl Lexeme.heightAfter height) after
      ∧ (phase ≠ .running → next ≠ .running) := by
  induction front generalizing phase height with
  | nil => exact ⟨phase, h, id⟩
  | cons first front ih =>
    obtain ⟨next, hnext, hrunning⟩ := ih h.2
    refine ⟨next, hnext, fun hphase => hrunning ?_⟩
    unfold Phase.after
    split
    · exact absurd rfl hphase
    · split <;> nofun
    · exact hphase

theorem ne_ended (h : Stops phase height (lexeme :: after)) (hkind : lexeme.kind ≠ .html) :
    phase ≠ .ended :=
  fun hended => hkind (h.1 hended).1

/-- Behind the end of the last statement there is one piece of text at most. -/
theorem of_ended (h : Stops .ended height after) :
    after = [] ∨ ∃ text, after = [text] ∧ text.kind = .html := by
  cases after with
  | nil => exact .inl rfl
  | cons text after =>
    obtain ⟨hkind, rfl⟩ := h.1 rfl
    exact .inr ⟨text, rfl, hkind⟩

/-- From a halt on the program goes on to the end of the statement. -/
theorem of_halt (h : Stops phase 0 (lexeme :: after)) (hkind : lexeme.kind = .haltCompiler) :
    Stops .halting (lexeme.heightAfter 0) after := by
  have hended := h.ne_ended (by rw [hkind]; nofun)
  have hafter := h.2
  cases phase with
  | running => rwa [Phase.after, if_pos hkind] at hafter
  | halting =>
    have hend : lexeme.endsStatement = false := by
      simp [Lexeme.endsStatement, Lexeme.isPunct, hkind]
    rwa [Phase.after, hend, if_neg Bool.false_ne_true] at hafter
  | ended => exact absurd rfl hended

/-- The end of a statement ends a program that was halted. -/
theorem of_end (h : Stops phase 0 (lexeme :: after)) (hphase : phase ≠ .running)
    (hend : lexeme.endsStatement = true) (hkind : lexeme.kind ≠ .html) :
    Stops .ended (lexeme.heightAfter 0) after := by
  have hended := h.ne_ended hkind
  have hafter := h.2
  cases phase with
  | running => exact absurd rfl hphase
  | halting => rwa [Phase.after, if_pos hend] at hafter
  | ended => exact absurd rfl hended

end Stops

/-- **A halt ends the program**: behind a halt that stands in no hole, and a semicolon or a closing
tag behind it that stands in none either, there is at most one more token. It is text, and it is all
that is left of the source. -/
theorem tokenize_halt_ends {source : String} {tokens : List Token}
    (h : tokenize source = .ok tokens) {before middle after : List Token} {halt stop : Token}
    (htokens : tokens = before ++ halt :: (middle ++ stop :: after))
    (hhalt : halt.kind = .haltCompiler)
    (hout : ¬halt.lexeme.InHole (before.map Token.lexeme)
      ((middle ++ stop :: after).map Token.lexeme))
    (hstop : stop.isPunct ';' = true ∨ stop.kind = .tag .close)
    (hstopout : ¬stop.lexeme.InHole ((before ++ halt :: middle).map Token.lexeme)
      (after.map Token.lexeme)) :
    after = [] ∨ ∃ data, after = [data] ∧ data.kind = .html
      ∧ source.toList = Token.spell (before ++ halt :: (middle ++ [stop])) ++ data.text.toList := by
  have hspell := spell_tokenize h
  obtain ⟨lexemes, hreads, rfl⟩ := Lexer.reads_of_tokenize h
  have hsplit : lexemes = before.map Token.lexeme ++ halt.lexeme
      :: (middle.map Token.lexeme ++ stop.lexeme :: after.map Token.lexeme) := by
    rw [← Token.map_lexeme_place 1 lexemes, htokens]
    simp
  have hstart : (Lexer.State.start source.toList).context.InPhase .running := rfl
  have hcounts : Counts 0 lexemes := hreads.counts
  have hstops : Stops .running 0 lexemes := hreads.stops hstart
  have hend : stop.lexeme.endsStatement = true := by
    rw [Lexeme.endsStatement, Bool.or_eq_true, beq_iff_eq]
    exact hstop
  obtain ⟨hbrace, hhtml⟩ := Lexeme.of_endsStatement hend
  have hhaltbrace : halt.lexeme.isPunct '\x7d' = false := by
    simp [Lexeme.isPunct, Token.lexeme, hhalt]
  rw [hsplit] at hcounts hstops
  -- No brace is open where the halt stands, and none where its statement ends.
  have hhaltheight := hcounts.height_eq_zero hhaltbrace (by simpa using hout)
  rw [← List.singleton_append, ← List.append_assoc, ← List.append_assoc] at hcounts
  have hstopheight := hcounts.height_eq_zero hbrace (by simpa using hstopout)
  rw [List.foldl_append, List.foldl_append, hhaltheight] at hstopheight
  obtain ⟨phase, hathalt, -⟩ := hstops.exists_drop
  rw [hhaltheight] at hathalt
  obtain ⟨last, hatstop, hlast⟩ := (hathalt.of_halt hhalt).exists_drop
  rw [List.foldl_cons, List.foldl_nil] at hstopheight
  rw [hstopheight] at hatstop
  rcases (hatstop.of_end (hlast (by decide)) hend hhtml).of_ended with hnone | ⟨text, htext, hkind⟩
  · exact .inl (List.map_eq_nil_iff.1 hnone)
  · obtain ⟨data, rfl, rfl⟩ := List.map_eq_singleton_iff.1 htext
    refine .inr ⟨data, rfl, hkind, ?_⟩
    rw [← hspell, htokens]
    simp

/-- A semicolon in a string ends no statement. -/
theorem tokenize_halt_ends_string :
    ∃ before middle halt stop data,
      tokenize "<?php __HALT_compiler(\"\x7b$f(fn()\x7ba;\x7d)\x7d\")?>\n<?php b;"
        = .ok (before ++ halt :: (middle ++ stop :: [data]))
      ∧ halt.kind = .haltCompiler ∧ stop.kind = .tag .close ∧ data.kind = .html
      ∧ data.text = "<?php b;" := by
  have h : (tokenize "<?php __HALT_compiler(\"\x7b$f(fn()\x7ba;\x7d)\x7d\")?>\n<?php b;").toOption
      = some ([⟨.tag .open_, "<?php ", 1⟩] ++ ⟨.haltCompiler, "__HALT_compiler", 1⟩ ::
        ([⟨.punct, "(", 1⟩, ⟨.punct, "\"", 1⟩, ⟨.grammar .curlyOpen, "\x7b", 1⟩,
          ⟨.variable_, "$f", 1⟩, ⟨.punct, "(", 1⟩, ⟨.keyword .fn, "fn", 1⟩, ⟨.punct, "(", 1⟩,
          ⟨.punct, ")", 1⟩, ⟨.punct, "\x7b", 1⟩, ⟨.name, "a", 1⟩, ⟨.punct, ";", 1⟩,
          ⟨.punct, "\x7d", 1⟩, ⟨.punct, ")", 1⟩, ⟨.punct, "\x7d", 1⟩, ⟨.punct, "\"", 1⟩,
          ⟨.punct, ")", 1⟩] ++ ⟨.tag .close, "?>\n", 1⟩ :: [⟨.html, "<?php b;", 2⟩])) := by
    decide +kernel
  have h := Lexer.tokenize_of_toOption h
  have hends := tokenize_halt_ends h rfl rfl
    (fun hin => by simpa [Token.lexeme, Kind.opensHole] using hin.exists_opener_mem) (.inr rfl)
    (fun hin => by simpa [Token.lexeme, Lexeme.isPunct] using hin.exists_brace_mem)
  rcases hends with hnone | ⟨data, hdata, hkind, -⟩
  · cases hnone
  · cases hdata
    exact ⟨_, _, _, _, _, h, rfl, rfl, hkind, rfl⟩

end Listing
