import Listing.Proofs.Bytes.Program
import Listing.Proofs.Endings

/-!
# Strings within code within strings

The scanner goes down into a string by recursion, the reader by contexts: a body remembers the code
around it, a hole in a body the body. `Leads` says that the reader gets from one place to another,
in however many steps, and `Matches` that a function of the scanner has got there too or has failed
as the reader does. With that the two can be compared one construct at a time.

* A body is its events. What the scanner does at each of them is one equation (`lexEncapsed_of_…`).
* A token of code is what the rule that reads it asks for; if that is the body of a string, then the
  body is matched (`lexToken_cases`).
* Bodies of strings contain holes, and holes contain tokens. Each takes some of the source before it
  comes to the other, and so one induction on the fuel does for both (`bodies_and_holes_match`).
-/

namespace Listing.Bytes

open Text Lexer

variable {src : List UInt8} {cursor : Cursor} {cs text rest : List Char}

/-! ## Bodies by their events -/

section Events

variable {closer : Closer} {fresh : Bool} {event : Body.Event} {lexemes : List Lexeme}
  {fuel line : Nat}

theorem construct_of (closer : Closer) :
    (Terminator.of closer).construct = .of closer.unterminated := by
  cases closer with
  | doubleQuote => rfl
  | backtick => rfl
  | label label => simp [Terminator.of, Terminator.construct, Closer.unterminated, Construct.of]

/-- The literal text in front of an event becomes a token. -/
theorem flush_of_seek (h : At src cursor.pos cs)
    (hs : Body.seek closer fresh cs = some (text, event)) :
    flush src .literal (cursor.pos + size text) cursor
      = .ok (cursor.after (Lexeme.ofText .literal text)) := by
  obtain ⟨onward, -, happ, -⟩ := Body.exists_onward_of_seek hs
  exact At.flush (happ ▸ h) .literal

variable (h : At src cursor.pos cs)
  (hfresh : ∀ label, closer = .label label → lineBegins src cursor.pos = fresh)
include h hfresh

theorem lexEncapsed_of_none (hs : Body.seek closer fresh cs = none) :
    lexEncapsed src (fuel + 1) (.of closer) line cursor
      = .error (.unterminated (.of closer.unterminated) line) := by
  rw [lexEncapsed, h.drop_eq, nextMark_encode h hfresh, hs, ok_bind, ← construct_of]
  rfl

/-- The closing mark is left to who reads the string. -/
theorem lexEncapsed_of_close (hs : Body.seek closer fresh cs = some (text, .close lexemes rest)) :
    lexEncapsed src (fuel + 1) (.of closer) line cursor
      = .ok (cursor.after (Lexeme.ofText .literal text)) := by
  rw [lexEncapsed, h.drop_eq, nextMark_encode h hfresh, hs, ok_bind]
  exact flush_of_seek h hs

theorem closeBody_of_close (hs : Body.seek closer fresh cs = some (text, .close lexemes rest)) :
    (lexEncapsed src (fuel + 1) (.of closer) line cursor >>= closeBody src closer line)
      = .ok (cursor.after (Lexeme.ofText .literal text ++ lexemes)) := by
  obtain ⟨onward, fresh', happ, he⟩ := Body.exists_onward_of_seek hs
  have honward : At src (cursor.after (Lexeme.ofText .literal text)).pos onward :=
    At.after_ofText .literal (happ ▸ h)
  rw [lexEncapsed_of_close h hfresh hs, ok_bind, closeBody_eq honward (Body.close?_of_event? he),
    Cursor.after_after]

theorem lexEncapsed_of_splice
    (hs : Body.seek closer fresh cs = some (text, .splice lexemes rest)) :
    lexEncapsed src (fuel + 1) (.of closer) line cursor
      = lexEncapsed src fuel (.of closer) line
        (cursor.after (Lexeme.ofText .literal text ++ lexemes)) := by
  obtain ⟨onward, fresh', happ, he⟩ := Body.exists_onward_of_seek hs
  have honward : At src (cursor.after (Lexeme.ofText .literal text)).pos onward :=
    At.after_ofText .literal (happ ▸ h)
  rw [lexEncapsed, h.drop_eq, nextMark_encode h hfresh, hs, ok_bind]
  dsimp only [Option.map_some, markOf]
  rw [flush_of_seek h hs, ok_bind]
  rcases Body.interpolation?_cases (Body.interpolation?_of_event? he nofun)
    with ⟨d, ds, rfl, heq⟩ | ⟨ds, -, heq⟩ | ⟨ds, -, heq⟩
  · cases heq
    rw [lexSimpleInterpolation_eq honward, ok_bind, Cursor.after_after]
  · cases heq
  · cases heq

/-- A hole is opened in one of two ways. -/
theorem lexEncapsed_of_hole (hs : Body.seek closer fresh cs = some (text, .hole lexemes rest)) :
    lexEncapsed src (fuel + 1) (.of closer) line cursor
      = lexEmbedded src fuel 1 (cursor.line + newlines text)
          (cursor.after (Lexeme.ofText .literal text ++ lexemes))
        >>= lexEncapsed src fuel (.of closer) line := by
  obtain ⟨onward, fresh', happ, he⟩ := Body.exists_onward_of_seek hs
  have honward : At src (cursor.after (Lexeme.ofText .literal text)).pos onward :=
    At.after_ofText .literal (happ ▸ h)
  rw [lexEncapsed, h.drop_eq, nextMark_encode h hfresh, hs, ok_bind]
  rcases Body.interpolation?_cases (Body.interpolation?_of_event? he nofun)
    with ⟨d, ds, -, heq⟩ | ⟨ds, rfl, heq⟩ | ⟨ds, rfl, heq⟩
  · cases heq
  · cases heq
    have hmark : markOf (.hole (⟨.grammar .dollarCurlyOpen, ['$', '\x7b']⟩ :: (Body.braced ds).1)
        (Body.braced ds).2) = .dollarBrace := rfl
    rw [Option.map_some, hmark]
    dsimp only
    rw [flush_of_seek h hs, ok_bind, lexDollarBrace_eq honward, ok_bind,
      Cursor.after_after, Cursor.after_line, Lexeme.spell_ofText]
  · cases heq
    have hmark : markOf (.hole [⟨.grammar .curlyOpen, ['\x7b']⟩] ('$' :: ds)) = .brace := rfl
    have hopen : At src (cursor.after (Lexeme.ofText .literal text)).pos (['\x7b'] ++ '$' :: ds) :=
      honward
    rw [Option.map_some, hmark]
    dsimp only
    rw [flush_of_seek h hs, ok_bind, hopen.emit _ (rfl : _ + 1 = _), ok_bind,
      Cursor.after_after, Cursor.after_line, Lexeme.spell_ofText]

end Events

/-! ## The reader beside the cursor -/

/-- The error as a fault. -/
def Fault.of (error : LexError) : Fault :=
  .unterminated (.of error.construct) error.line

/-- The reader where the cursor stands, with the rest of the source ahead. -/
def Cursor.reader (cursor : Cursor) (rest : List Char) (context : Context) : State :=
  { rest, line := cursor.line, previous := cursor.previous, context }

theorem Cursor.advance_reader (cursor : Cursor) (cs : List Char) (context : Context) (step : Step) :
    (cursor.reader cs context).advance step
      = (cursor.after step.lexemes).reader step.rest step.context := by
  simp [State.advance, reader, previous_after]

/-- The reader gets from one place to another, over some lexemes. -/
structure Leads (cursor : Cursor) (cs : List Char) (context : Context) (step : Step) : Prop where
  covers : Covers step.lexemes step.rest cs
  run_eq : Lexer.run (cursor.reader cs context)
    = (Lexer.run ((cursor.after step.lexemes).reader step.rest step.context)).map
      (Listing.Token.place cursor.line step.lexemes ++ ·)

section Leads

variable {context next : Context} {step : Step}

theorem Leads.of_step (hne : cs ≠ [])
    (h : context.step cursor.line cursor.previous cs = .ok step) :
    Leads cursor cs context step := by
  refine ⟨Context.step_covers hne h, ?_⟩
  rw [← Cursor.advance_reader]
  exact run_of_step hne h

theorem Leads.trans {more : Step} (h : Leads cursor cs context step)
    (hmore : Leads (cursor.after step.lexemes) step.rest step.context more) :
    Leads cursor cs context ⟨step.lexemes ++ more.lexemes, more.rest, more.context⟩ := by
  refine ⟨?_, ?_⟩
  · rw [← h.covers.spelled]
    exact Covers.append _ h.covers.texts hmore.covers
  · rw [h.run_eq, hmore.run_eq, Cursor.after_after]
    cases Lexer.run _ with
    | error => rfl
    | ok tokens => simp [Except.map, Listing.Token.place_append]

theorem Leads.at_after (h : Leads cursor cs context step) (hat : At src cursor.pos cs) :
    At src (cursor.after step.lexemes).pos step.rest := by
  rw [← h.covers.spelled] at hat
  exact hat.append _

theorem Leads.pos_lt (h : Leads cursor cs context step) :
    cursor.pos < (cursor.after step.lexemes).pos := by
  obtain ⟨lexeme, lexemes, he⟩ := List.exists_cons_of_ne_nil h.covers.some_lexeme
  have hpos := size_pos (h.covers.texts lexeme (by simp [he]))
  rw [Cursor.after_pos, he, Lexeme.spell_cons, size_append]
  omega

end Leads

/-- The answer of the scanner is what the reader comes to from the same place: an error; or a place
in a context which, like the lexeme before it, is as `post` says. -/
inductive Matches (cursor : Cursor) (cs : List Char) (context : Context)
    (post : Lexeme → Context → Prop) : Checked Cursor → Prop
  | fails {error : LexError} : Lexer.run (cursor.reader cs context) = .error error →
      Matches cursor cs context post (.error (.of error))
  | leads {lexemes : List Lexeme} {last : Lexeme} {rest : List Char} {next : Context} :
      Leads cursor cs context ⟨lexemes ++ [last], rest, next⟩ → post last next →
      Matches cursor cs context post (.ok (cursor.after (lexemes ++ [last])))

namespace Matches

variable {context : Context} {post post' : Lexeme → Context → Prop} {result : Checked Cursor}

theorem imp (h : Matches cursor cs context post result)
    (hpost : ∀ last next, post last next → post' last next) :
    Matches cursor cs context post' result := by
  cases h with
  | fails hrun => exact .fails hrun
  | leads hleads hlast => exact .leads hleads (hpost _ _ hlast)

/-- What is matched behind some lexemes is matched from before them. -/
theorem prepend {step : Step} (hleads : Leads cursor cs context step)
    (h : Matches (cursor.after step.lexemes) step.rest step.context post result) :
    Matches cursor cs context post result := by
  cases h with
  | fails hrun =>
    refine .fails ?_
    rw [hleads.run_eq, hrun]
    rfl
  | leads hmore hlast =>
    rw [Cursor.after_after, ← List.append_assoc]
    have hwhole := hleads.trans hmore
    rw [← List.append_assoc] at hwhole
    exact .leads hwhole hlast

/-- One function of the scanner after another. -/
theorem bind {follower : Cursor → Checked Cursor} (h : Matches cursor cs context post result)
    (hnext : ∀ lexemes last rest next, Leads cursor cs context ⟨lexemes ++ [last], rest, next⟩ →
      post last next →
      Matches cursor cs context post' (follower (cursor.after (lexemes ++ [last])))) :
    Matches cursor cs context post' (result >>= follower) := by
  cases h with
  | fails hrun => exact .fails hrun
  | leads hleads hlast => exact hnext _ _ _ _ hleads hlast

end Matches

/-! ## Bodies and holes -/

section Marks

variable {closer : Closer} {fresh : Bool} {lexemes : List Lexeme}

/-- The lexeme belongs to the program, and to the code around it nothing has happened. -/
def Closes (last : Lexeme) : Prop :=
  last.kind.isInside = true ∧ ∀ context : Context, context.afterLexeme last = context

theorem Closes.of_kind {last : Lexeme} (hin : last.kind.isInside = true)
    (hhalt : last.kind ≠ .haltCompiler)
    (hpunct : ∀ c, c = ';' ∨ c = '\x7b' ∨ c = '\x7d' → last.isPunct c = false) : Closes last := by
  refine ⟨hin, fun context => ?_⟩
  have hend := hpunct ';' (by simp)
  have hopen := hpunct '\x7b' (by simp)
  have hclose := hpunct '\x7d' (by simp)
  cases context <;> simp [Context.afterLexeme, *]

/-- A body is closed by one lexeme. -/
theorem exists_closes (h : Body.close? closer fresh cs = some (.close lexemes rest)) :
    ∃ last, lexemes = [last] ∧ Closes last := by
  unfold Body.close? at h
  split at h
  · obtain ⟨after, -, he⟩ := Option.map_eq_some_iff.1 h
    cases he
    exact ⟨_, rfl, .of_kind rfl (by simp) (by simp [Lexeme.isPunct, Quoted.double])⟩
  · obtain ⟨after, -, he⟩ := Option.map_eq_some_iff.1 h
    cases he
    exact ⟨_, rfl, .of_kind rfl (by simp) (by simp [Lexeme.isPunct, Quoted.back])⟩
  · split at h
    · obtain ⟨found, -, he⟩ := Option.map_eq_some_iff.1 h
      cases he
      exact ⟨_, rfl, .of_kind rfl (by simp) (by simp [Lexeme.isPunct])⟩
    · cases h

end Marks

section Freshness

/-- Whether a line begins behind some lexemes is told by their last character. -/
theorem Leads.lineBegins {context : Context} {step : Step} {front : List Char} {c : Char}
    (hleads : Leads cursor cs context step) (h : At src cursor.pos cs)
    (hlast : Lexeme.spell step.lexemes = front ++ [c]) :
    Bytes.lineBegins src (cursor.after step.lexemes).pos = (c == '\n') := by
  have hcs : cs = front ++ c :: step.rest := by
    rw [← hleads.covers.spelled, hlast, List.append_assoc]
    rfl
  rw [Cursor.after_pos, hlast, size_append, ← Nat.add_assoc]
  exact (At.append front (hcs ▸ h)).lineBegins

end Freshness

/-- With this much fuel the bodies of strings are read to their closing mark as the reader reads
them, wherever they begin. -/
def BodiesMatch (src : List UInt8) (fuel : Nat) : Prop :=
  ∀ (cursor : Cursor) (cs : List Char) (closer : Closer) (line : Nat) (fresh : Bool)
    (outer : Context), At src cursor.pos cs → cursor.inCode = true →
    src.length < cursor.pos + fuel →
    (∀ label, closer = .label label → lineBegins src cursor.pos = fresh) →
    Matches cursor cs (.body closer line fresh outer) (fun last next => Closes last ∧ next = outer)
      (lexEncapsed src fuel (.of closer) line cursor >>= closeBody src closer line)

/-- With this much fuel the code inside a string is read to its closing brace as the reader reads
it, wherever it begins. -/
def HolesMatch (src : List UInt8) (fuel : Nat) : Prop :=
  ∀ (cursor : Cursor) (cs : List Char) (depth line : Nat) (outer : Context),
    At src cursor.pos cs → cursor.inCode = true → src.length < cursor.pos + fuel →
    Matches cursor cs (.hole depth line outer)
      (fun last next => last = ⟨.punct, ['\x7d']⟩ ∧ next = outer)
      (lexEmbedded src fuel (depth + 1) line cursor)

section Nesting

variable {fuel : Nat} {context : Context} {found : Scan}

theorem leads_of_scan {next : Context} (hne : cs ≠ []) (hcode : context.step = context.stepCode)
    (hscan : Code.scan cursor.previous cs = .ok found)
    (hnext : context.afterScan cursor.line found = .ok next) :
    Leads cursor cs context ⟨found.lexemes, found.rest, next⟩ := by
  refine .of_step hne ?_
  rw [hcode, Context.stepCode, hscan]
  simp only [hnext]

/-- The scanner does as an answer says that does not leave the program, and the reader goes on in
the same context but for what the last lexeme changes. -/
theorem follow_matches (hb : BodiesMatch src fuel) (h : At src cursor.pos cs) (hne : cs ≠ [])
    (hin : cursor.inCode = true) (hfuel : src.length ≤ cursor.pos + fuel)
    (hcode : context.step = context.stepCode)
    (hscan : Code.scan cursor.previous cs = .ok found) (hinside : found.Inside) :
    Matches cursor cs context
      (fun last next => last.kind.isInside = true ∧ next = context.afterLexeme last)
      (follow src (lexEncapsed src fuel) cursor (.ok found)) := by
  cases hturn : found.turn with
  | leave => exact absurd hturn hinside.turn
  | stay =>
    obtain ⟨lexemes, last, hlast⟩ := (List.eq_nil_or_concat found.lexemes).resolve_left
      (Code.scan_covers hne hscan).some_lexeme
    rw [List.concat_eq_append] at hlast
    have hleads : Leads cursor cs context ⟨found.lexemes, found.rest, context.afterLexeme last⟩ :=
      leads_of_scan hne hcode hscan (by simp [Context.afterScan, hturn, hlast])
    simp only [follow, hturn]
    rw [hlast] at hleads ⊢
    exact .leads hleads ⟨hinside.lexemes last (by simp [hlast]), rfl⟩
  | enter closer =>
    have hleads : Leads cursor cs context
        ⟨found.lexemes, found.rest, .body closer cursor.line true context⟩ :=
      leads_of_scan hne hcode hscan (by simp [Context.afterScan, hturn])
    have hpos := hleads.pos_lt
    simp only [follow, hturn]
    refine .prepend hleads (.imp (hb _ _ closer _ true context (hleads.at_after h) hin
      (by omega) fun label hlabel => ?_) ?_)
    · rw [hlabel] at hturn
      obtain ⟨header, hheader, -, hlexemes⟩ := Code.scan_enter_label hne hscan hturn
      obtain ⟨front, hfront⟩ := Heredoc.header?_text hheader
      have hspell : Lexeme.spell found.lexemes = front ++ ['\n'] := by simp [hlexemes, hfront]
      exact hleads.lineBegins h hspell
    · rintro last next ⟨⟨hkind, hsame⟩, rfl⟩
      exact ⟨hkind, (hsame next).symm⟩

/-- A token of program text is a closing tag, or the scanner does what the reader does. -/
theorem lexToken_cases (hb : BodiesMatch src fuel) (h : At src cursor.pos cs) (hne : cs ≠ [])
    (hin : cursor.inCode = true) (hfuel : src.length ≤ cursor.pos + fuel)
    (hcode : context.step = context.stepCode) :
    (∃ tag rest, tag.kind = .tag .close
        ∧ Code.scan cursor.previous cs = .ok ⟨[tag], rest, .leave⟩
        ∧ lexToken src (lexEncapsed src fuel) cursor
          = .ok { cursor.after [tag] with inCode := false })
      ∨ Matches cursor cs context
        (fun last next => last.kind.isInside = true ∧ next = context.afterLexeme last)
        (lexToken src (lexEncapsed src fuel) cursor) := by
  have htoken : lexToken src (lexEncapsed src fuel) cursor
      = follow src (lexEncapsed src fuel) cursor (Code.scan cursor.previous cs) := by
    obtain ⟨c, cs, rfl⟩ := List.exists_cons_of_ne_nil hne
    exact lexToken_eq h
  rw [htoken]
  cases hscan : Code.scan cursor.previous cs with
  | error construct =>
    have hstep : context.step cursor.line cursor.previous cs = .error ⟨construct, cursor.line⟩ := by
      rw [hcode, Context.stepCode, hscan]
    exact .inr (.fails (run_of_error hne hstep))
  | ok found =>
    rcases Code.scan_inside_or_leaves hne hscan with hinside | ⟨hturn, text, htag⟩
    · exact .inr (follow_matches hb h hne hin hfuel hcode hscan hinside)
    · refine .inl ⟨⟨.tag .close, text⟩, found.rest, rfl, ?_, ?_⟩
      · rw [← hturn, ← htag]
      · simp only [follow, hturn, htag]

/-- The context after an event that begins on `opened`, in a body that began on `line`. -/
def contextAfter (closer : Closer) (line opened : Nat) (outer : Context) : Body.Event → Context
  | .close .. => outer
  | .splice .. => .body closer line false outer
  | .hole .. => .hole 0 opened (.body closer line false outer)

/-- A step in a body: literal text and the event behind it. -/
theorem leads_of_seek {closer : Closer} {fresh : Bool} {event : Body.Event}
    (hs : Body.seek closer fresh cs = some (text, event)) (cursor : Cursor) (line : Nat)
    (outer : Context) :
    Leads cursor cs (.body closer line fresh outer)
      ⟨Lexeme.ofText .literal text ++ event.lexemes, event.rest,
        contextAfter closer line (cursor.line + newlines text) outer event⟩ := by
  have hne : cs ≠ [] := by
    rintro rfl
    cases hs
  refine .of_step hne ?_
  rw [Context.step, Context.stepBody, hs]
  cases event <;> rfl

theorem BodiesMatch.succ (hb : BodiesMatch src fuel) (hh : HolesMatch src fuel) :
    BodiesMatch src (fuel + 1) := by
  intro cursor cs closer line fresh outer h hin hfuel hfresh
  cases hs : Body.seek closer fresh cs with
  | none =>
    have hrun : Lexer.run (cursor.reader cs (.body closer line fresh outer))
        = .error ⟨closer.unterminated, line⟩ := by
      by_cases hnil : cs = []
      · exact run_of_nil hnil
      · refine run_of_error hnil ?_
        simp [State.step, Cursor.reader, Context.step, Context.stepBody, hs]
    rw [lexEncapsed_of_none h hfresh hs]
    exact .fails hrun
  | some found =>
    obtain ⟨text, event⟩ := found
    have hleads := leads_of_seek hs cursor line outer
    have hpos := hleads.pos_lt
    cases event with
    | close lexemes rest =>
      obtain ⟨onward, fresh', -, he⟩ := Body.exists_onward_of_seek hs
      obtain ⟨last, rfl, hcloses⟩ := exists_closes (Body.close?_of_event? he)
      rw [closeBody_of_close h hfresh hs]
      exact .leads hleads ⟨hcloses, rfl⟩
    | splice lexemes rest =>
      obtain ⟨front, c, hlast, hc, -⟩ := Body.exists_last_of_splice hs
      rw [lexEncapsed_of_splice h hfresh hs]
      refine .prepend hleads (hb _ _ closer line false outer (hleads.at_after h) hin (by omega)
        fun _ _ => ?_)
      have hspell : Lexeme.spell (Lexeme.ofText .literal text ++ lexemes)
          = (text ++ front) ++ [c] := by simp [hlast]
      rw [← beq_eq_false_iff_ne] at hc
      exact (hleads.lineBegins h hspell).trans hc
    | hole lexemes rest =>
      rw [lexEncapsed_of_hole h hfresh hs, bind_assoc]
      refine .prepend hleads (.bind (hh _ _ 0 _ _ (hleads.at_after h) hin (by omega)) ?_)
      rintro inner last rest next hinner ⟨rfl, rfl⟩
      have hbrace := hinner.pos_lt
      have hinside := hleads.at_after h
      refine .prepend hinner (hb _ _ closer line false outer (hinner.at_after hinside) hin
        (by omega) fun _ _ => ?_)
      exact hinner.lineBegins hinside (Lexeme.spell_append inner [⟨.punct, ['\x7d']⟩])

theorem letters_encode_eq_singleton {c : Char} (hc : c.toNat < 0x80) :
    letters (encode cs) = [c] ↔ cs = [c] := by
  refine ⟨fun h => ?_, fun h => ?_⟩
  · cases cs with
    | nil => cases h
    | cons d ds =>
      by_cases hd : d.toNat < 0x80
      · rw [encode_cons_of_ascii hd, letters, List.map_cons, ofUInt8_toUInt8 hd] at h
        obtain ⟨rfl, hnil⟩ := List.cons.inj h
        have : size ds = 0 := by
          rw [size, ← List.length_map, hnil, List.length_nil]
        rw [size_eq_zero_iff.1 this]
      · obtain ⟨byte, bytes, he, hb⟩ := encode_cons_of_wide (Nat.le_of_not_lt hd) ds
        rw [he, letters, List.map_cons] at h
        have := congrArg Char.toNat (List.cons.inj h).1
        rw [toNat_ofUInt8] at this
        omega
  · rw [h]
    exact letters_encode (by simpa [Plain] using hc)

/-- Punctuation is told by its byte. -/
theorem isPunct_encode {c : Char} (hc : c.toNat < 0x80) (lexeme : Lexeme) (line : Nat) :
    Token.isPunct ⟨lexeme.kind, encode lexeme.text, line⟩ c = lexeme.isPunct c := by
  have htext : (letters (encode lexeme.text) == [c]) = (lexeme.text == [c]) := by
    rw [Bool.eq_iff_iff, beq_iff_eq, beq_iff_eq]
    exact letters_encode_eq_singleton hc
  rw [Token.isPunct, Lexeme.isPunct, htext]

theorem eq_of_isPunct {lexeme : Lexeme} {c : Char} (h : lexeme.isPunct c = true) :
    lexeme = ⟨.punct, [c]⟩ := by
  obtain ⟨hkind, htext⟩ := Bool.and_eq_true_iff.1 h
  cases lexeme
  simp_all

/-- Code in a string ends neither with the source nor with the program. -/
theorem lexEmbedded_of_left {depth line : Nat}
    (h : src.length ≤ cursor.pos ∨ cursor.inCode = false) :
    lexEmbedded src (fuel + 1) depth line cursor = .error (.unterminated .interpolation line) := by
  rw [lexEmbedded, if_pos (by simpa using h)]

/-- A closing tag in a hole. -/
theorem lexEmbedded_of_tag {depth line : Nat} {tag : Lexeme} (hlt : cursor.pos < src.length)
    (hin : cursor.inCode = true) (htag : tag.kind = .tag .close)
    (htoken : lexToken src (lexEncapsed src (fuel + 1)) cursor
      = .ok { cursor.after [tag] with inCode := false }) :
    lexEmbedded src (fuel + 2) depth line cursor = .error (.unterminated .interpolation line) := by
  rw [lexEmbedded, if_neg (by simp [hin]; omega), htoken, ok_bind]
  dsimp only
  rw [cursor.getLast?_tokens_after_one]
  dsimp only
  rw [if_neg (by simp [Token.isPunct, htag]), if_neg (by simp [Token.isPunct, htag])]
  exact lexEmbedded_of_left (.inr rfl)

/-- What the scanner does behind a token in a hole: it counts the braces. -/
theorem HolesMatch.after_lexeme (hh : HolesMatch src fuel) {depth line : Nat} {outer : Context}
    {lexemes : List Lexeme} {last : Lexeme} (h : At src cursor.pos cs) (hin : cursor.inCode = true)
    (hfuel : src.length < cursor.pos + (fuel + 1))
    (hleads : Leads cursor cs (.hole depth line outer)
      ⟨lexemes ++ [last], rest, (Context.hole depth line outer).afterLexeme last⟩) :
    Matches cursor cs (.hole depth line outer)
      (fun last next => last = ⟨.punct, ['\x7d']⟩ ∧ next = outer)
      (if last.isPunct '\x7b' then
          lexEmbedded src fuel (depth + 1 + 1) line (cursor.after (lexemes ++ [last]))
        else if last.isPunct '\x7d' then
          if depth + 1 - 1 = 0 then pure (cursor.after (lexemes ++ [last]))
          else lexEmbedded src fuel (depth + 1 - 1) line (cursor.after (lexemes ++ [last]))
        else lexEmbedded src fuel (depth + 1) line (cursor.after (lexemes ++ [last]))) := by
  have hpos : cursor.pos < (cursor.after (lexemes ++ [last])).pos := hleads.pos_lt
  have hafter : At src (cursor.after (lexemes ++ [last])).pos rest := hleads.at_after h
  have hmore := fun depth => hh _ rest depth line outer hafter hin (by omega)
  dsimp only [Context.afterLexeme] at hleads
  by_cases hopen : last.isPunct '\x7b' = true
  · rw [if_pos hopen] at hleads ⊢
    exact .prepend hleads (hmore (depth + 1))
  · rw [if_neg hopen] at hleads ⊢
    by_cases hclose : last.isPunct '\x7d' = true
    · rw [if_pos hclose] at hleads ⊢
      cases depth with
      | zero => exact .leads hleads ⟨eq_of_isPunct hclose, rfl⟩
      | succ depth => exact .prepend hleads (hmore depth)
    · rw [if_neg hclose] at hleads ⊢
      exact .prepend hleads (hmore depth)

theorem HolesMatch.succ (hb : BodiesMatch src fuel) (hh : HolesMatch src fuel) :
    HolesMatch src (fuel + 1) := by
  intro cursor cs depth line outer h hin hfuel
  by_cases hnil : cs = []
  · have hend : ¬ cursor.pos < src.length := by
      rw [h.lt_length_iff]
      simpa using hnil
    have hrun : Lexer.run (cursor.reader cs (.hole depth line outer))
        = .error ⟨.interpolation, line⟩ := run_of_nil hnil
    rw [lexEmbedded_of_left (.inl (by omega))]
    exact .fails hrun
  · have hlt := h.lt_length_iff.2 hnil
    rcases lexToken_cases hb h hnil hin (by omega)
      (rfl : (Context.hole depth line outer).step = _) with ⟨tag, rest, htag, hscan, htoken⟩ | hmatch
    · have hstep : (Context.hole depth line outer).step cursor.line cursor.previous cs
          = .error ⟨.interpolation, line⟩ := by
        simp [Context.step, Context.stepCode, hscan, Context.afterScan, Context.afterTag]
      have hrun : Lexer.run (cursor.reader cs (.hole depth line outer))
          = .error ⟨.interpolation, line⟩ := run_of_error hnil hstep
      obtain ⟨fuel, rfl⟩ : ∃ n, fuel = n + 1 := ⟨fuel - 1, by omega⟩
      rw [lexEmbedded_of_tag hlt hin htag htoken]
      exact .fails hrun
    · rw [lexEmbedded, if_neg (by simp [hin]; omega)]
      refine .bind hmatch ?_
      rintro lexemes last rest next hleads ⟨-, rfl⟩
      rw [cursor.getLast?_tokens_after]
      dsimp only
      rw [isPunct_encode (by decide), isPunct_encode (by decide)]
      exact hh.after_lexeme h hin hfuel hleads

/-- By induction on the fuel: the bodies and the holes in them take what is left over by each
other. -/
theorem bodies_and_holes_match (src : List UInt8) (fuel : Nat) :
    BodiesMatch src fuel ∧ HolesMatch src fuel := by
  induction fuel with
  | zero =>
    refine ⟨?_, ?_⟩
    · intro cursor cs closer line fresh outer h hin hfuel
      exact absurd h.le_length (by omega)
    · intro cursor cs depth line outer h hin hfuel
      exact absurd h.le_length (by omega)
  | succ fuel ih => exact ⟨ih.1.succ ih.2, .succ ih.1 ih.2⟩

end Nesting

end Listing.Bytes
