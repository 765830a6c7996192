import Listing.Proofs.Bytes.Nesting

/-!
# The byte scanner and the reader agree

From wherever the two stand, the scanner comes to what the reader comes to (`runs_match`): the same
tokens with their texts in bytes, or the same construct left open. Two things follow that only the
scanner can get wrong.

* A position can be out of range or inside a character. It never is where the scanner looks or cuts.
* A function can take nothing, and a loop not end. A token always takes something, and fuel for the
  bytes that are left is enough.
-/

namespace Listing.Bytes

open Text Lexer

variable {src : List UInt8} {cursor : Cursor} {cs rest : List Char}

/-! ## Where the reader ends -/

/-- What the reader comes to from where the cursor stands, as the scanner says it. -/
def Cursor.outcome (cursor : Cursor) (cs : List Char) (context : Context) : Checked (List Token) :=
  match Lexer.run (cursor.reader cs context) with
  | .ok tokens => .ok (cursor.tokens ++ tokens.map Token.of)
  | .error error => .error (.of error)

section Outcome

variable {context : Context}

theorem Cursor.outcome_nil (cursor : Cursor) (h : context.finish = .ok ()) :
    cursor.outcome [] context = .ok cursor.tokens := by
  have hrun : Lexer.run (cursor.reader [] context) = .ok [] := by
    rw [run_of_nil rfl]
    exact congrArg _ h
  rw [outcome, hrun]
  simp

theorem Leads.outcome_eq {step : Step} (h : Leads cursor cs context step) :
    cursor.outcome cs context = (cursor.after step.lexemes).outcome step.rest step.context := by
  rw [Cursor.outcome, Cursor.outcome, h.run_eq]
  cases Lexer.run ((cursor.after step.lexemes).reader step.rest step.context) with
  | error error => rfl
  | ok tokens => simp [Except.map, Cursor.after]

/-- What is done behind a match ends as the reader does from before it. -/
theorem Matches.outcome_eq {post : Lexeme → Context → Prop} {result : Checked Cursor}
    {follower : Cursor → Checked (List Token)} (h : Matches cursor cs context post result)
    (hnext : ∀ lexemes last rest next, Leads cursor cs context ⟨lexemes ++ [last], rest, next⟩ →
      post last next →
      follower (cursor.after (lexemes ++ [last]))
        = (cursor.after (lexemes ++ [last])).outcome rest next) :
    (result >>= follower) = cursor.outcome cs context := by
  cases h with
  | fails hrun =>
    rw [Cursor.outcome, hrun]
    rfl
  | leads hleads hlast => exact (hnext _ _ _ _ hleads hlast).trans hleads.outcome_eq.symm

end Outcome

/-! ## The text around the program -/

/-- A step through the text around the program. -/
theorem exists_leads_html (hne : cs ≠ []) (hin : cursor.inCode = false) :
    ∃ lexemes rest inCode, cursor.afterHtml cs = { cursor.after lexemes with inCode }
      ∧ Leads cursor cs .html ⟨lexemes, rest, if inCode then .code else .html⟩ := by
  cases htag : Markup.openTag? (onward Markup.opens cs) with
  | some found =>
    refine ⟨Lexeme.ofText .html (before Markup.opens cs) ++ [found.1], found.2, true, ?_,
      .of_step hne ?_⟩
    · rw [Cursor.afterHtml, htag]
    · rw [Context.step, Context.stepHtml, htag]
      rfl
  | none =>
    refine ⟨[⟨.html, cs⟩], [], false, ?_, .of_step hne ?_⟩
    · rw [Cursor.afterHtml, htag, ← hin]
      rfl
    · rw [Context.step, Context.stepHtml, htag]
      rfl

/-! ## The end of a halted program -/

section Halt

variable {fuel : Nat}

theorem run_of_end (h : At src cursor.pos []) : run src (fuel + 1) cursor = .ok cursor.tokens := by
  have := h.lt_length_iff
  rw [run, if_neg (by simpa using this)]
  rfl

/-- The data behind a halted program, up to the end of the source. -/
def lexData (src : List UInt8) (fuel : Nat) (cursor : Cursor) : Checked (List Token) :=
  (if cursor.pos < src.length then emit src .html src.length cursor else pure cursor)
    >>= run src (fuel + 1)

theorem lexData_eq (h : At src cursor.pos cs) :
    lexData src fuel cursor = cursor.outcome cs .data := by
  rw [lexData]
  by_cases hnil : cs = []
  · subst hnil
    have hend := h.lt_length_iff
    rw [if_neg (by simpa using hend), cursor.outcome_nil rfl]
    exact run_of_end h
  · have hleads : Leads cursor cs .data ⟨[⟨.html, cs⟩], [], .data⟩ := .of_step hnil rfl
    have hall : At src cursor.pos (cs ++ []) := by rwa [List.append_nil]
    rw [if_pos (h.lt_length_iff.2 hnil), hall.emit _ h.add_size.symm, ok_bind,
      hleads.outcome_eq, Cursor.outcome_nil _ rfl]
    exact run_of_end (hleads.at_after h)

theorem lexHalting_eq {n : Nat} (h : At src cursor.pos cs) (hin : cursor.inCode = true)
    (hfuel : src.length < cursor.pos + n) :
    (lexHalting src n cursor >>= lexData src fuel) = cursor.outcome cs .halting := by
  induction n generalizing cursor cs with
  | zero => exact absurd h.le_length (by omega)
  | succ n ih =>
    rw [lexHalting]
    by_cases hnil : cs = []
    · subst hnil
      have hend := h.lt_length_iff
      rw [if_neg (by simpa using hend), cursor.outcome_nil rfl]
      exact (lexData_eq h).trans (cursor.outcome_nil rfl)
    · rw [if_pos (h.lt_length_iff.2 hnil), bind_assoc]
      rcases lexToken_cases (bodies_and_holes_match src n).1 h hnil hin (by omega)
        (rfl : Context.halting.step = _) with ⟨tag, rest, htag, hscan, htoken⟩ | hmatch
      · have hleads : Leads cursor cs .halting ⟨[tag], rest, .data⟩ :=
          leads_of_scan hnil rfl hscan rfl
        rw [htoken, ok_bind]
        dsimp only
        rw [cursor.getLast?_tokens_after_one, if_pos (by simp [htag]), hleads.outcome_eq]
        exact lexData_eq (hleads.at_after h)
      · refine hmatch.outcome_eq ?_
        rintro lexemes last rest next hleads ⟨hinside, rfl⟩
        have hpos : cursor.pos < (cursor.after (lexemes ++ [last])).pos := hleads.pos_lt
        have hafter : At src (cursor.after (lexemes ++ [last])).pos rest := hleads.at_after h
        have htag : (last.kind == .tag .close) = false := by
          cases hkind : last.kind <;> simp_all [Kind.isInside]
        rw [cursor.getLast?_tokens_after, Option.any_some, isPunct_encode (by decide), htag,
          Bool.or_false, Context.afterLexeme]
        by_cases hend : last.isPunct ';' = true
        · rw [if_pos hend, if_pos hend]
          exact lexData_eq hafter
        · rw [if_neg hend, if_neg hend]
          exact ih hafter hin (by omega)

theorem lexHalt_eq {n : Nat} (h : At src cursor.pos cs) (hin : cursor.inCode = true)
    (hfuel : src.length < cursor.pos + n) :
    (lexHalt src n cursor >>= run src (fuel + 1)) = cursor.outcome cs .halting := by
  rw [lexHalt, bind_assoc]
  exact lexHalting_eq h hin hfuel

end Halt

/-! ## Step after step -/

/-- With this much fuel the scanner comes to what the reader comes to, from wherever the two
stand. -/
def RunsMatch (src : List UInt8) (fuel : Nat) : Prop :=
  ∀ (cursor : Cursor) (cs : List Char), At src cursor.pos cs → src.length < cursor.pos + fuel →
    run src fuel cursor = cursor.outcome cs (if cursor.inCode then .code else .html)

namespace RunsMatch

variable {fuel : Nat}

theorem after (ih : RunsMatch src fuel) {context : Context} {lexemes : List Lexeme} (inCode : Bool)
    (h : At src cursor.pos cs) (hfuel : src.length < cursor.pos + (fuel + 1))
    (hleads : Leads cursor cs context ⟨lexemes, rest, if inCode then .code else .html⟩) :
    run src fuel { cursor.after lexemes with inCode } = cursor.outcome cs context := by
  have hpos : cursor.pos < (cursor.after lexemes).pos := hleads.pos_lt
  rw [hleads.outcome_eq]
  exact ih _ rest (hleads.at_after h) (show _ < (cursor.after lexemes).pos + _ by omega)

/-- The text around the program. -/
theorem of_html (ih : RunsMatch src fuel) (h : At src cursor.pos cs) (hne : cs ≠ [])
    (hfuel : src.length < cursor.pos + (fuel + 1)) (hin : cursor.inCode = false) :
    run src (fuel + 1) cursor = cursor.outcome cs .html := by
  obtain ⟨lexemes, rest, inCode, hafter, hleads⟩ := exists_leads_html hne hin
  have hhtml : lexInlineHtml src (src.length + 1) cursor.pos cursor = .ok (cursor.afterHtml cs) :=
    lexInlineHtml_eq h (List.nil_append cs).symm rfl rfl (by rw [size_nil]; omega)
  rw [run, if_pos (h.lt_length_iff.2 hne), hin, Bool.not_false, if_pos rfl, hhtml, ok_bind, hafter]
  exact ih.after inCode h hfuel hleads

/-- A token of the program, and all the rest if it halts the program. -/
theorem of_code (ih : RunsMatch src fuel) (h : At src cursor.pos cs) (hne : cs ≠ [])
    (hfuel : src.length < cursor.pos + (fuel + 1)) (hin : cursor.inCode = true) :
    run src (fuel + 1) cursor = cursor.outcome cs .code := by
  have hlt := h.lt_length_iff.2 hne
  rw [run, if_pos hlt, hin, Bool.not_true, if_neg (by decide)]
  rcases lexToken_cases (bodies_and_holes_match src fuel).1 h hne hin (by omega)
    (rfl : Context.code.step = _) with ⟨tag, rest, htag, hscan, htoken⟩ | hmatch
  · rw [htoken, ok_bind]
    dsimp only
    rw [cursor.getLast?_tokens_after_one, if_neg (by simp [htag]), ok_bind]
    exact ih.after false h hfuel (leads_of_scan hne rfl hscan rfl)
  · refine hmatch.outcome_eq ?_
    rintro lexemes last rest next hleads ⟨-, rfl⟩
    have hpos : cursor.pos < (cursor.after (lexemes ++ [last])).pos := hleads.pos_lt
    have hafter : At src (cursor.after (lexemes ++ [last])).pos rest := hleads.at_after h
    rw [cursor.getLast?_tokens_after, Option.any_some, Context.afterLexeme]
    by_cases hhalt : last.kind = .haltCompiler
    · obtain ⟨more, rfl⟩ : ∃ n, fuel = n + 1 := ⟨fuel - 1, by omega⟩
      rw [if_pos (by simpa using hhalt), if_pos hhalt]
      exact lexHalt_eq hafter hin (by omega)
    · rw [if_neg (by simpa using hhalt), if_neg hhalt, ok_bind]
      exact (ih _ rest hafter (by omega)).trans (by rw [Cursor.after_inCode, hin]; rfl)

end RunsMatch

/-- **The scanner reads every source as the reader does.** -/
theorem runs_match (src : List UInt8) (fuel : Nat) : RunsMatch src fuel := by
  induction fuel with
  | zero =>
    intro cursor cs h hfuel
    exact absurd h.le_length (by omega)
  | succ fuel ih =>
    intro cursor cs h hfuel
    by_cases hnil : cs = []
    · subst hnil
      rw [run_of_end h, cursor.outcome_nil]
      split <;> rfl
    · cases hin : cursor.inCode with
      | false => exact ih.of_html h hnil hfuel hin
      | true => exact ih.of_code h hnil hfuel hin

/-! ## Whole sources -/

/-- The answer of the reader, with its texts and labels in bytes. -/
def inBytes : Except LexError (List Listing.Token) → Checked (List Token)
  | .ok tokens => .ok (tokens.map Token.of)
  | .error error => .error (.of error)

theorem run_start_eq (source : String) {fuel : Nat}
    (hfuel : (encode source.toList).length < fuel) :
    run (encode source.toList) fuel {} = inBytes (Listing.tokenize source) := by
  rw [runs_match _ fuel {} _ (At.start source.toList) (by simpa using hfuel)]
  have hreader : ({} : Cursor).reader source.toList .html = .start source.toList := rfl
  rw [if_neg (by decide), Cursor.outcome, hreader, Listing.tokenize]
  cases Lexer.run (.start source.toList) <;> rfl

theorem tokenize_eq (source : String) :
    Bytes.tokenize source = inBytes (Listing.tokenize source) :=
  run_start_eq source (Nat.lt_succ_self _)

/-- An answer of the reader is never about the range of a position or about fuel. -/
theorem inBytes_eq_error {result : Except LexError (List Listing.Token)} {fault : Fault}
    (h : inBytes result = .error fault) :
    ∃ construct line, fault = .unterminated construct line := by
  cases result with
  | ok tokens => cases h
  | error error =>
    cases h
    exact ⟨_, _, rfl⟩

/-! ## Cuts -/

theorem flatMap_text_of (tokens : List Listing.Token) :
    (tokens.map Token.of).flatMap Token.text = encode (Listing.Token.spell tokens) := by
  induction tokens with
  | nil => rfl
  | cons token tokens ih => simp [ih, Token.of]

/-- **No cut goes wrong.** The source is given as its UTF-8. No index or slice that the scanner takes
is out of range, no text that it cuts begins or ends inside a character, and in all else it answers
as the reader does. Each token is what lies between two places where characters begin, and so is
itself UTF-8. -/
theorem tokenize_cuts_between_characters (source : String) :
    (encode source.toList).toByteArray = source.toUTF8
      ∧ Bytes.tokenize source = inBytes (Listing.tokenize source)
      ∧ Bytes.tokenize source ≠ .error .outOfBounds
      ∧ ∀ tokens, Bytes.tokenize source = .ok tokens →
          ∀ before token after, tokens = before ++ token :: after →
            let start := (before.flatMap Token.text).length
            cut (encode source.toList) start (start + token.text.length) = .ok token.text
              ∧ token.text.toByteArray.IsValidUTF8 := by
  refine ⟨String.utf8Encode_toList, tokenize_eq source, fun herror => ?_, ?_⟩
  · rw [tokenize_eq] at herror
    obtain ⟨construct, line, hfault⟩ := inBytes_eq_error herror
    cases hfault
  · intro tokens hok before token after htokens
    rw [tokenize_eq] at hok
    cases hread : Listing.tokenize source with
    | error error =>
      rw [hread] at hok
      cases hok
    | ok read =>
      rw [hread] at hok
      cases hok
      obtain ⟨front, back, rfl, rfl, hback⟩ := List.map_eq_append_iff.1 htokens
      obtain ⟨found, more, rfl, rfl, rfl⟩ := List.map_eq_cons_iff.1 hback
      have hspell : source.toList = Listing.Token.spell front
          ++ (found.text.toList ++ Listing.Token.spell more) := by
        rw [← spell_tokenize hread, Listing.Token.spell_append, Listing.Token.spell_cons]
      rw [flatMap_text_of, hspell]
      exact ⟨(At.behind _ _).cut _, ⟨found.text.toList, rfl⟩⟩

/-- An escape in front of a character of two bytes. -/
theorem tokenize_cuts_between_characters_escaped :
    ∃ tokens, Bytes.tokenize "<?php '\\é';" = .ok tokens
      ∧ tokens.map (fun token => token.text.length) = [6, 5, 1]
      ∧ ∀ before token after, tokens = before ++ token :: after →
        let start := (before.flatMap Token.text).length
        cut (encode "<?php '\\é';".toList) start (start + token.text.length) = .ok token.text
          ∧ token.text.toByteArray.IsValidUTF8 := by
  have hsizes : (Bytes.tokenize "<?php '\\é';").toOption.map
      (List.map fun token => token.text.length) = some [6, 5, 1] := by decide +kernel
  have hcuts := (tokenize_cuts_between_characters "<?php '\\é';").2.2.2
  cases hresult : Bytes.tokenize "<?php '\\é';" with
  | error fault =>
    rw [hresult] at hsizes
    cases hsizes
  | ok tokens =>
    rw [hresult] at hsizes
    exact ⟨tokens, rfl, Option.some.inj hsizes, hcuts tokens hresult⟩

/-! ## Progress -/

/-- The scanner has gone on: some tokens have come to those it had, their texts are what lies between
the two positions, and the new position is one where a character begins. -/
structure Advances (src : List UInt8) (cursor next : Cursor) : Prop where
  pos_lt : cursor.pos < next.pos
  pos_le : next.pos ≤ src.length
  boundary : isBoundary src next.pos = true
  tokens : ∃ tokens, tokens ≠ [] ∧ next.tokens = cursor.tokens ++ tokens
    ∧ cut src cursor.pos next.pos = .ok (tokens.flatMap Token.text)

theorem Leads.advances {context : Context} {step : Step} (hleads : Leads cursor cs context step)
    (h : At src cursor.pos cs) : Advances src cursor (cursor.after step.lexemes) := by
  refine ⟨hleads.pos_lt, (hleads.at_after h).le_length, (hleads.at_after h).isBoundary,
    (Listing.Token.place cursor.line step.lexemes).map Token.of, ?_, rfl, ?_⟩
  · obtain ⟨lexeme, lexemes, he⟩ := List.exists_cons_of_ne_nil hleads.covers.some_lexeme
    simp [he, Listing.Token.place]
  · rw [← hleads.covers.spelled] at h
    rw [flatMap_text_of, Listing.Token.spell_place]
    exact h.cut _

/-- Inside a character the scanner takes a name to begin, and fails as it cuts it. -/
theorem lexToken_of_not_boundary {encapsed : Terminator → Nat → Cursor → Checked Cursor}
    (hlt : cursor.pos < src.length) (h : isBoundary src cursor.pos = false) :
    lexToken src encapsed cursor = .error .outOfBounds := by
  have hget : src[cursor.pos]? = some src[cursor.pos] := List.getElem?_eq_getElem hlt
  have hwide : 0x80 ≤ src[cursor.pos].toNat := by
    refine wide_of_not_first ?_
    rw [isBoundary, hget] at h
    simpa using h
  have hnot : ∀ {p : Char → Bool}, Narrow p → is p src[cursor.pos] = false :=
    fun hp => hp.is_eq_false hwide
  have hbeq : ∀ {a : Char}, a.toNat < 0x80 → is (· == a) src[cursor.pos] = false :=
    fun ha => hnot (.beq ha)
  have hname : is isNameStart src[cursor.pos] = true :=
    isNameStart_of_wide (by rwa [toNat_ofUInt8])
  have hcut : ∀ stop, cut src cursor.pos stop = .error .outOfBounds := fun stop => by
    rw [cut, h, Bool.false_and, if_neg (by decide)]
  rw [lexToken, index, hget]
  dsimp only
  rw [ok_bind, hbeq (by decide), if_neg (by decide), ok_bind]
  dsimp only
  rw [hbeq (by decide), if_neg (by decide), ok_bind]
  dsimp only [lexPlain]
  rw [hnot .isSpace, hnot .isDigit, hname, hnot (.or (.beq (by decide)) (.beq (by decide))),
    hbeq (a := '?') (by decide), hbeq (a := '#') (by decide), hbeq (a := '/') (by decide),
    hbeq (a := '$') (by decide), hbeq single_ascii, hbeq double_ascii,
    hbeq (a := Quoted.back) (by decide), hbeq (a := '.') (by decide),
    hbeq (a := '\\') (by decide)]
  simp only [Bool.false_and, Bool.false_eq_true, if_false, if_true]
  rw [lexIdentifier, hcut, error_bind]

/-- Reading one token, with this much fuel for the strings in it: the scanner goes on by at least one
token, or something was left open. Only inside a character, where it never stands, it would fail as
it cuts. -/
def Progresses (src : List UInt8) (fuel : Nat) (cursor : Cursor) : Prop :=
  (∃ next, lexToken src (lexEncapsed src fuel) cursor = .ok next ∧ Advances src cursor next)
    ∨ (∃ construct line, lexToken src (lexEncapsed src fuel) cursor
      = .error (.unterminated construct line))
    ∨ (isBoundary src cursor.pos = false
      ∧ lexToken src (lexEncapsed src fuel) cursor = .error .outOfBounds)

theorem At.progresses {fuel : Nat} (h : At src cursor.pos cs) (hne : cs ≠ [])
    (hin : cursor.inCode = true) (hfuel : src.length ≤ cursor.pos + fuel) :
    Progresses src fuel cursor := by
  rcases lexToken_cases (bodies_and_holes_match src fuel).1 h hne hin hfuel
    (rfl : Context.code.step = _) with ⟨tag, rest, -, hscan, htoken⟩ | hmatch
  · have hleads : Leads cursor cs .code ⟨[tag], rest, .html⟩ := leads_of_scan hne rfl hscan rfl
    obtain ⟨hlt, hle, hboundary, htokens⟩ := hleads.advances h
    exact .inl ⟨_, htoken, hlt, hle, hboundary, htokens⟩
  · rw [Progresses]
    generalize lexToken src (lexEncapsed src fuel) cursor = result at hmatch
    cases hmatch with
    | fails => exact .inr (.inl ⟨_, _, rfl⟩)
    | leads hleads => exact .inl ⟨_, rfl, hleads.advances h⟩

/-- **Reading goes on, and ends.** Wherever the scanner stands in program text, fuel for the bytes
that are left is enough to read a token. With fuel for the whole source there is one answer, that of
the reader, and it is never that the fuel was used up. -/
theorem lexToken_advances_and_run_ends (source : String) :
    (∀ (cursor : Cursor) (fuel : Nat), cursor.inCode = true →
        cursor.pos < (encode source.toList).length →
        (encode source.toList).length - cursor.pos ≤ fuel →
        Progresses (encode source.toList) fuel cursor)
      ∧ ∀ fuel, (encode source.toList).length < fuel →
        run (encode source.toList) fuel {} = inBytes (Listing.tokenize source)
          ∧ run (encode source.toList) fuel {} ≠ .error .exhausted := by
  refine ⟨fun cursor fuel hin hlt hfuel => ?_, fun fuel hfuel => ?_⟩
  · cases hb : isBoundary (encode source.toList) cursor.pos with
    | false => exact .inr (.inr ⟨hb, lexToken_of_not_boundary hlt hb⟩)
    | true =>
      obtain ⟨rest, h⟩ := At.of_isBoundary hb
      exact h.progresses (h.lt_length_iff.1 hlt) hin (by omega)
  · have hrun := run_start_eq source hfuel
    refine ⟨hrun, fun herror => ?_⟩
    obtain ⟨construct, line, hfault⟩ := inBytes_eq_error (hrun.symm.trans herror)
    cases hfault

/-- A string with a hole in it, behind an escaped character of two bytes. -/
theorem lexToken_advances_and_run_ends_nested :
    let src := encode "<?php \"\\é\x7b$a\x7d\";".toList
    let cursor : Cursor := { pos := 6, inCode := true }
    (∃ next, lexToken src (lexEncapsed src 10) cursor = .ok next ∧ next.pos = 15
        ∧ Advances src cursor next)
      ∧ run src 17 {} ≠ .error .exhausted := by
  intro src cursor
  have hall := lexToken_advances_and_run_ends "<?php \"\\é\x7b$a\x7d\";"
  have hpos : (lexToken src (lexEncapsed src 10) cursor).toOption.map Cursor.pos = some 15 := by
    decide +kernel
  refine ⟨?_, (hall.2 17 (by decide +kernel)).2⟩
  rcases hall.1 cursor 10 rfl (by decide +kernel) (by decide +kernel)
    with ⟨next, hnext, hadvances⟩ | ⟨construct, line, herror⟩ | ⟨-, herror⟩
  · rw [hnext] at hpos
    exact ⟨next, hnext, Option.some.inj hpos, hadvances⟩
  · rw [herror] at hpos
    cases hpos
  · rw [herror] at hpos
    cases hpos

end Listing.Bytes
