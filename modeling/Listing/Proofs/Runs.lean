import Listing.Role
import Listing.Proofs.Shapes

/-!
# Whole runs

Nothing that belongs together is cut in two. Spaces and names are read to their end, so what comes
after them does not go on with them (`Text.IsRun`). A piece of literal text or of text around the
program is read up to something that is neither, and that is read in the same step
(`Lexeme.Whole`); text goes on past an offset or a brace that does not count, and is not broken off
there.

For a name this means that one token of whitespace after it is the whole gap, so that to look one
token further is to look past the gap (`tokenize_runs_whole`).
-/

namespace Listing

open Text

/-! ## Runs of characters -/

/-- The text is a run of a class, and what comes after it does not go on with it. -/
structure Text.IsRun (p : Char → Bool) (text after : List Char) : Prop where
  ne_nil : text ≠ []
  all : ∀ c ∈ text, p c = true
  stop : headIs p after = false

namespace Text.IsRun

variable {p : Char → Bool} {text after : List Char}

theorem of_takeWhile {cs : List Char} (h : cs.takeWhile p ≠ []) :
    IsRun p (cs.takeWhile p) (cs.dropWhile p) where
  ne_nil := h
  all _ hc := List.all_eq_true.1 List.all_takeWhile _ hc
  stop := by
    have hstop := List.head?_dropWhile_not p cs
    cases hcs : cs.dropWhile p with
    | nil => rfl
    | cons c rest => simpa [hcs] using hstop

/-- What is left of a run cannot be another. -/
theorem not_append (h : IsRun p text after) {next rest : List Char} (hrest : IsRun p next rest) :
    next ++ rest ≠ after := by
  rintro rfl
  obtain ⟨c, next, rfl⟩ := List.exists_cons_of_ne_nil hrest.ne_nil
  have hstop : p c = false := h.stop
  rw [hrest.all c List.mem_cons_self] at hstop
  cases hstop

theorem takeWhile_append (h : IsRun p text after) : (text ++ after).takeWhile p = text := by
  rw [List.takeWhile_append_of_pos h.all]
  cases after with
  | nil => simp
  | cons c after =>
    have hstop : p c = false := h.stop
    simp [hstop]

end Text.IsRun

/-! ## Whole lexemes -/

/-- Kinds of which two could be one. -/
def Kind.isRun : Kind → Bool
  | .whitespace | .name | .literal | .html => true
  | _ => false

theorem Kind.cases_of_isRun {kind : Kind} (h : kind.isRun = true) :
    kind = .whitespace ∨ kind = .name ∨ kind = .literal ∨ kind = .html := by
  unfold Kind.isRun at h
  split at h
  · exact .inl rfl
  · exact .inr (.inl rfl)
  · exact .inr (.inr (.inl rfl))
  · exact .inr (.inr (.inr rfl))
  · cases h

theorem Kind.isRun_of_isReserved {kind : Kind} (h : kind.isReserved = true) :
    kind.isRun = false := by
  unfold Kind.isReserved at h
  split at h
  all_goals first | rfl | cases h

theorem Kind.isRun_of_isSign {kind : Kind} (h : kind.isSign = true) : kind.isRun = false := by
  unfold Kind.isSign at h
  split at h
  all_goals first | rfl | cases h

namespace Lexeme

/-- The lexeme is no piece of something larger that goes on after it. -/
structure Whole (lexeme : Lexeme) (after : List Lexeme) : Prop where
  gap : lexeme.kind = .whitespace → IsRun isSpace lexeme.text (spell after)
  name : lexeme.kind = .name → IsRun isNameChar lexeme.text (spell after)
  piece : lexeme.kind = .literal ∨ lexeme.kind = .html →
    ∀ next ∈ after.head?, next.kind ≠ lexeme.kind

namespace Whole

variable {kind : Kind} {text : List Char} {after : List Lexeme}

theorem of_kind (h : kind.isRun = false) (text : List Char) (after : List Lexeme) :
    Whole ⟨kind, text⟩ after := by
  refine ⟨?_, ?_, ?_⟩
  · rintro rfl
    cases h
  · rintro rfl
    cases h
  · rintro (rfl | rfl) <;> cases h

theorem of_gap (h : IsRun isSpace text (spell after)) : Whole ⟨.whitespace, text⟩ after :=
  ⟨fun _ => h, nofun, nofun⟩

theorem of_name (h : IsRun isNameChar text (spell after)) : Whole ⟨.name, text⟩ after :=
  ⟨nofun, fun _ => h, nofun⟩

theorem of_piece (hkind : kind = .literal ∨ kind = .html)
    (h : ∀ next ∈ after.head?, next.kind ≠ kind) (text : List Char) :
    Whole ⟨kind, text⟩ after := by
  refine ⟨?_, ?_, fun _ => h⟩
  · rintro rfl
    rcases hkind with hkind | hkind <;> cases hkind
  · rintro rfl
    rcases hkind with hkind | hkind <;> cases hkind

end Whole

end Lexeme

/-- Each lexeme is whole in front of those after it. -/
def AllWhole : List Lexeme → Prop
  | [] => True
  | lexeme :: after => lexeme.Whole after ∧ AllWhole after

namespace AllWhole

variable {lexemes after : List Lexeme}

theorem of_kinds (hkinds : ∀ lexeme ∈ lexemes, lexeme.kind.isRun = false)
    (hafter : AllWhole after) : AllWhole (lexemes ++ after) := by
  induction lexemes with
  | nil => exact hafter
  | cons lexeme lexemes ih =>
    rw [List.forall_mem_cons] at hkinds
    exact ⟨.of_kind hkinds.1 _ _, ih hkinds.2⟩

/-- A piece of text in front of something else. -/
theorem of_ofText {kind : Kind} (hkind : kind = .literal ∨ kind = .html) (text : List Char)
    {next : Lexeme} (hnext : next.kind ≠ kind) (hafter : AllWhole (next :: after)) :
    AllWhole (Lexeme.ofText kind text ++ next :: after) := by
  unfold Lexeme.ofText
  split
  · exact hafter
  · have hfirst : ∀ found ∈ (next :: after).head?, found.kind ≠ kind := by
      rintro found hfound
      cases hfound
      exact hnext
    exact ⟨.of_piece hkind hfirst text, hafter⟩

/-- Two neighbours are not of one kind if they could be one. -/
theorem kind_ne {first second : Lexeme} (h : AllWhole (first :: second :: after))
    (hrun : first.kind.isRun = true) : second.kind ≠ first.kind := by
  obtain ⟨hfirst, hsecond, -⟩ := h
  intro heq
  obtain hkind | hkind | hkind := Kind.cases_of_isRun hrun
  · apply (hfirst.gap hkind).not_append (hsecond.gap (heq.trans hkind))
    simp
  · apply (hfirst.name hkind).not_append (hsecond.name (heq.trans hkind))
    simp
  · exact hfirst.piece hkind second rfl heq

theorem drop {front : List Lexeme} (h : AllWhole (front ++ after)) : AllWhole after := by
  induction front with
  | nil => exact h
  | cons lexeme front ih => exact ih h.2

end AllWhole

namespace Lexer

/-- A word that is read as a name goes on to its end. -/
theorem Word.kindAfter_whole (previous : Option Kind) {cs : List Char}
    (hs : headIs isNameStart cs = true) {after : List Lexeme}
    (hafter : Lexeme.spell after = cs.dropWhile isNameChar) :
    Lexeme.Whole ⟨kindAfter previous (cs.takeWhile isNameChar), cs.takeWhile isNameChar⟩ after := by
  rcases kindAfter_eq_name_or previous (cs.takeWhile isNameChar) with hname | hreserved
  · rw [hname]
    exact .of_name (hafter ▸ .of_takeWhile (word_ne_nil hs))
  · exact .of_kind (Kind.isRun_of_isReserved hreserved) _ _

/-- What a variable takes along. -/
theorem Body.access_whole {cs : List Char} {after : List Lexeme} (h : AllWhole after)
    (hafter : Lexeme.spell after = (access cs).2) : AllWhole ((access cs).1 ++ after) := by
  obtain hnone | ⟨inside, kind, text, hkey, hoffset⟩
    | ⟨kind, arrow, name, hkind, hname, hmember, hrest⟩ := access_cases cs
  · rw [hnone]
    exact h
  · rw [hoffset]
    have hkeywhole : Lexeme.Whole ⟨kind, text⟩ (⟨.punct, [']']⟩ :: after) := by
      obtain ⟨rfl, htext, hend⟩ | rfl | rfl := key?_cases hkey
      · refine .of_name ?_
        rw [Lexeme.spell_cons, hafter, List.singleton_append, hend, htext]
        exact .of_takeWhile (htext ▸ (key?_append hkey).2)
      · exact .of_kind rfl _ _
      · exact .of_kind rfl _ _
    exact ⟨.of_kind rfl _ _, hkeywhole, .of_kind rfl _ _, h⟩
  · rw [hmember]
    have harrow : Lexeme.Whole ⟨.grammar kind, arrow⟩
        (⟨.name, name.takeWhile isNameChar⟩ :: after) := by
      rcases hkind with rfl | rfl <;> exact .of_kind rfl _ _
    have hrun : IsRun isNameChar (name.takeWhile isNameChar) (Lexeme.spell after) := by
      rw [hafter, hrest]
      exact .of_takeWhile (Word.word_ne_nil hname)
    exact ⟨harrow, .of_name hrun, h⟩

/-! ## What one step does -/

namespace Context

/-- What a step reads is whole, if what comes after it is. -/
def Completes (step : Step) : Prop :=
  ∀ after, Lexeme.spell after = step.rest → (step.rest = [] → after = []) → AllWhole after →
    AllWhole (step.lexemes ++ after)

section Steps

variable {context : Context} {line : Nat} {previous : Option Kind} {cs : List Char} {next : Step}

theorem Completes.of_kinds (h : ∀ lexeme ∈ next.lexemes, lexeme.kind.isRun = false) :
    Completes next :=
  fun _ _ _ hwhole => .of_kinds h hwhole

theorem Completes.one {kind : Kind} (h : kind.isRun = false) (text rest : List Char)
    (context' : Context) : Completes ⟨[⟨kind, text⟩], rest, context'⟩ :=
  .of_kinds (List.forall_mem_singleton.2 h)

theorem Completes.plain (quote : Char) (opening body rest : List Char) (context' : Context) :
    Completes ⟨Quoted.plain opening body quote, rest, context'⟩ := by
  intro after _ _ hwhole
  dsimp only
  unfold Quoted.plain
  split
  · refine ⟨.of_kind rfl _ _, .of_piece (.inl rfl) ?_ body, .of_kind rfl _ _, hwhole⟩
    rintro - ⟨⟩
    nofun
  · exact ⟨.of_kind rfl _ _, hwhole⟩

theorem stepCode_completes (hne : cs ≠ []) (hs : context.stepCode line previous cs = .ok next) :
    Completes next := by
  obtain ⟨scan, context', hscan, -, rfl⟩ := exists_scan_of_stepCode hs
  have hcovers := Code.scan_covers hne hscan
  cases Code.scan_shape hne hscan with
  | gap =>
    intro after hafter _ hwhole
    have hrun : IsRun isSpace (cs.takeWhile isSpace) (Lexeme.spell after) :=
      hafter ▸ .of_takeWhile (hcovers.texts _ List.mem_cons_self)
    exact ⟨.of_gap hrun, hwhole⟩
  | word hword =>
    obtain ⟨hstart, rfl | ⟨tail, rest, -, rfl⟩ | ⟨-, rfl⟩⟩ := Word.rule_cases hword
    · intro after hafter _ hwhole
      exact ⟨Word.kindAfter_whole previous hstart hafter, hwhole⟩
    · exact .one rfl _ _ _
    · intro after hafter _ hwhole
      have hrun : IsRun isNameChar (cs.takeWhile isNameChar) (Lexeme.spell after) :=
        hafter ▸ .of_takeWhile (Word.word_ne_nil hstart)
      exact ⟨.of_name hrun, hwhole⟩
  | number hnumber =>
    obtain ⟨-, kind, text, rest, rfl | rfl, rfl⟩ := Number.rule_cases hnumber
    · exact .one rfl _ _ _
    · exact .one rfl _ _ _
  | sign hsign =>
    obtain ⟨-, kind, text, rest, hkind, rfl⟩ := hsign
    exact .one (Kind.isRun_of_isSign hkind) _ _ _
  | string => exact .plain _ _ _ _ _
  | enter => exact .one rfl _ _ _
  | heredoc => exact .one rfl _ _ _
  | nowdoc =>
    intro after _ _ hwhole
    dsimp only
    rw [List.cons_append, List.cons_append, List.append_assoc]
    exact ⟨.of_kind rfl _ _, .of_ofText (.inl rfl) _ nofun ⟨.of_kind rfl _ _, hwhole⟩⟩
  | leave => exact .one rfl _ _ _

/-- Behind text up to the end of the source there is nothing. -/
theorem html_completes (cs : List Char) (context' : Context) :
    Completes ⟨[⟨.html, cs⟩], [], context'⟩ := by
  intro after _ hlast _
  have hnone : ∀ found ∈ ([] : List Lexeme).head?, found.kind ≠ .html := nofun
  rw [hlast rfl]
  exact ⟨.of_piece (.inr rfl) hnone cs, trivial⟩

theorem stepHtml_completes (cs : List Char) : Completes (stepHtml cs) := by
  unfold stepHtml
  split
  · next tag rest htag =>
    have hkinds : tag.kind.isRun = false ∧ tag.kind ≠ .html := by
      rcases Markup.openTag?_kind htag with hkind | hkind <;> rw [hkind] <;> exact ⟨rfl, nofun⟩
    intro after _ _ hwhole
    dsimp only
    rw [List.append_assoc]
    exact .of_ofText (.inr rfl) _ hkinds.2 ⟨.of_kind hkinds.1 _ _, hwhole⟩
  · exact html_completes cs _

/-- Literal text goes on to the next event. -/
theorem stepBody_completes {closer : Closer} {opened : Nat} {fresh : Bool} {outer : Context}
    (hs : stepBody closer opened fresh outer line cs = .ok next) : Completes next := by
  obtain ⟨text, event, hseek, rfl⟩ := exists_seek_of_stepBody hs
  intro after hafter _ hwhole
  dsimp only
  rw [List.append_assoc]
  cases Body.seek_shape hseek with
  | quote => exact .of_ofText (.inl rfl) _ nofun ⟨.of_kind rfl _ _, hwhole⟩
  | label => exact .of_ofText (.inl rfl) _ nofun ⟨.of_kind rfl _ _, hwhole⟩
  | splice =>
    exact .of_ofText (.inl rfl) _ nofun ⟨.of_kind rfl _ _, Body.access_whole hwhole hafter⟩
  | dollarBrace hname =>
    refine .of_ofText (.inl rfl) _ nofun ⟨.of_kind rfl _ _, .of_kinds ?_ hwhole⟩
    rcases hname with rfl | ⟨braced, rfl⟩
    · nofun
    · exact List.forall_mem_singleton.2 rfl
  | brace => exact .of_ofText (.inl rfl) _ nofun ⟨.of_kind rfl _ _, hwhole⟩

/-- What one step keeps. -/
theorem step_completes (hne : cs ≠ []) (hs : context.step line previous cs = .ok next) :
    Completes next := by
  obtain ⟨rfl, rfl⟩ | ⟨rfl, rfl⟩ | ⟨-, hs⟩ | ⟨closer, opened, fresh, outer, rfl, hs⟩ :=
    step_cases hs
  · exact stepHtml_completes cs
  · exact html_completes cs _
  · exact stepCode_completes hne hs
  · exact stepBody_completes hs

end Steps

end Context

/-- What a whole reading keeps. -/
theorem Reads.allWhole {state : State} {lexemes : List Lexeme} (h : Reads state lexemes) :
    AllWhole lexemes := by
  induction h with
  | done => trivial
  | step hne hstep hrest ih =>
    refine Context.step_completes hne hstep _ hrest.spell_eq ?_ ih
    -- A step that has used up the source is the last.
    intro hend
    cases hrest with
    | done => rfl
    | step hmore => exact absurd hend hmore

end Lexer

/-! ## The runs of a source -/

/-- **Runs are not broken up**: two neighbours are never both whitespace, text around the program,
literal text or names. A token of whitespace is all the whitespace that there is at its place, so a
name whose role is read off the token behind such a gap is read off what stands behind all gaps. -/
theorem tokenize_runs_whole {source : String} {tokens : List Token}
    (h : tokenize source = .ok tokens) :
    (∀ before first second after, tokens = before ++ first :: second :: after →
      ∀ kind ∈ [Kind.whitespace, .html, .literal, .name],
        ¬(first.kind = kind ∧ second.kind = kind))
      ∧ ∀ before gap after, tokens = before ++ gap :: after → gap.kind = .whitespace →
        (gap.text.toList ++ Token.spell after).takeWhile isSpace = gap.text.toList
          ∧ Role.lookAhead (gap :: after)
            = Role.lookAhead (gap :: after.dropWhile (·.kind.isWhitespace)) := by
  obtain ⟨lexemes, hreads, rfl⟩ := Lexer.reads_of_tokenize h
  have hlexemes := Token.map_lexeme_place 1 lexemes
  have hwhole : ∀ before after, Token.place 1 lexemes = before ++ after →
      AllWhole (after.map Token.lexeme) := by
    intro before after hsplit
    have hall : AllWhole (before.map Token.lexeme ++ after.map Token.lexeme) := by
      rw [← List.map_append, ← hsplit, hlexemes]
      exact hreads.allWhole
    exact hall.drop
  refine ⟨?_, ?_⟩
  · rintro before first second after hsplit kind hkind ⟨hfirst, hsecond⟩
    have hrun : first.lexeme.kind.isRun = true := by
      rw [Token.lexeme, hfirst]
      simp only [List.mem_cons, List.not_mem_nil, or_false] at hkind
      rcases hkind with rfl | rfl | rfl | rfl <;> rfl
    exact (hwhole before _ hsplit).kind_ne hrun (hsecond.trans hfirst.symm)
  · intro before gap after hsplit hgap
    have hall := hwhole before _ hsplit
    refine ⟨?_, ?_⟩
    · rw [← Token.spell_map_lexeme]
      exact (hall.1.gap hgap).takeWhile_append
    · cases after with
      | nil => rfl
      | cons next after =>
        have hne : next.kind ≠ gap.kind := hall.kind_ne (by rw [Token.lexeme, hgap]; rfl)
        have hnext : next.kind.isWhitespace = false := by
          rw [Kind.isWhitespace, beq_eq_false_iff_ne, ← hgap]
          exact hne
        rw [List.dropWhile_cons_of_neg (by simp [hnext])]

/-- A bracket that opens no offset stays in the text. -/
theorem tokenize_runs_whole_bracket :
    ∃ before variable_ literal after,
      tokenize "<?php f (\"a$b[ c\");" = .ok (before ++ variable_ :: literal :: after)
      ∧ literal.kind = .literal ∧ literal.text = "[ c"
      ∧ ∀ next ∈ after.head?, next.kind ≠ .literal := by
  have h : (tokenize "<?php f (\"a$b[ c\");").toOption
      = some ([⟨.tag .open_, "<?php ", 1⟩, ⟨.name, "f", 1⟩, ⟨.whitespace, " ", 1⟩, ⟨.punct, "(", 1⟩,
          ⟨.punct, "\"", 1⟩, ⟨.literal, "a", 1⟩] ++ ⟨.variable_, "$b", 1⟩ :: ⟨.literal, "[ c", 1⟩ ::
          [⟨.punct, "\"", 1⟩, ⟨.punct, ")", 1⟩, ⟨.punct, ";", 1⟩]) := by
    decide +kernel
  have h := Lexer.tokenize_of_toOption h
  refine ⟨_, _, _, _, h, rfl, rfl, ?_⟩
  rintro next ⟨⟩ hnext
  apply (tokenize_runs_whole h).1 _ _ _ _ (List.append_cons _ _ _) .literal (by decide)
  exact ⟨rfl, hnext⟩

end Listing
