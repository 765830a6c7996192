import Listing.Proofs.Bytes.Agreement

/-!
# The searches ahead, by their bytes

Before the scanner reads a string in double quotes it searches for a closing quote, and in a nowdoc
it searches for the line that closes the label. Other bodies are read mark by mark (`lexEncapsed`).
That the two agree is shown on the text (`Body.Ends`); here it is carried over to the bytes.

* Fuel only tells how long the scanner may go on. A result that it has reached with some fuel it
  reaches with more (`lexEncapsed_of_le`), so what holds with enough of it holds with any.
* A body that is read has ended where the text says (`endsAt_of_lexEncapsed`), whatever was read in
  its holes.
-/

namespace Listing.Bytes

open Text Lexer

variable {src : List UInt8} {cursor next : Cursor} {cs : List Char} {closer : Closer} {fresh : Bool}
  {fuel line : Nat}

/-! ## Fuel -/

/-- What the first computation comes to, the second comes to; if the first fails, nothing is said of
the second. -/
def Approximates {α : Type} (few more : Checked α) : Prop :=
  ∀ a, few = .ok a → more = .ok a

namespace Approximates

variable {α β : Type} {few more : Checked α}

theorem refl (result : Checked α) : Approximates result result :=
  fun _ h => h

theorem error (fault : Fault) (more : Checked α) : Approximates (.error fault) more :=
  fun _ h => nomatch h

theorem bind {f g : α → Checked β} (h : Approximates few more)
    (hfg : ∀ a, Approximates (f a) (g a)) : Approximates (few >>= f) (more >>= g) := by
  intro b hb
  cases few with
  | error fault => cases hb
  | ok a =>
    rw [h a rfl]
    exact hfg a b hb

theorem ite {c : Prop} [Decidable c] {few' more' : Checked α} (h : Approximates few more)
    (h' : Approximates few' more') :
    Approximates (if c then few else few') (if c then more else more') := by
  split
  · exact h
  · exact h'

end Approximates

section Tokens

open Approximates

variable {few more : Terminator → Nat → Cursor → Checked Cursor}
  (h : ∀ terminator line cursor,
    Approximates (few terminator line cursor) (more terminator line cursor))
include h

theorem lexDoubleQuoted_mono (mark : Nat) (cursor : Cursor) :
    Approximates (lexDoubleQuoted src few mark cursor) (lexDoubleQuoted src more mark cursor) := by
  unfold lexDoubleQuoted
  dsimp only
  split
  · exact refl _
  · exact .bind (refl _) fun _ =>
      .ite (.bind (refl _) fun _ => .bind (h _ _ _) fun _ => refl _) (refl _)

theorem lexBacktick_mono (cursor : Cursor) :
    Approximates (lexBacktick src few cursor) (lexBacktick src more cursor) :=
  .bind (refl _) fun _ => .bind (h _ _ _) fun _ => refl _

theorem lexHeredoc_mono (header : Header) (cursor : Cursor) :
    Approximates (lexHeredoc src few header cursor) (lexHeredoc src more header cursor) :=
  .bind (refl _) fun _ => .ite (refl _) (.bind (h _ _ _) fun _ => refl _)

theorem lexPlain_mono (byte : UInt8) (cursor : Cursor) :
    Approximates (lexPlain src few byte cursor) (lexPlain src more byte cursor) :=
  .ite (refl _) <| .ite (refl _) <| .ite (refl _) <| .ite (refl _) <| .ite (refl _) <|
    .ite (refl _) <| .ite (refl _) <| .ite (refl _) <| .ite (lexDoubleQuoted_mono h _ _) <|
    .ite (refl _) <| .ite (lexDoubleQuoted_mono h _ _) <| .ite (lexBacktick_mono h _) (refl _)

theorem lexToken_mono (cursor : Cursor) :
    Approximates (lexToken src few cursor) (lexToken src more cursor) := by
  refine .bind (refl _) fun byte => .bind (refl _) fun header => ?_
  cases header with
  | some header => exact lexHeredoc_mono h header cursor
  | none =>
    refine .bind (refl _) fun cast => ?_
    cases cast with
    | some cast => exact refl _
    | none => exact lexPlain_mono h byte cursor

end Tokens

open Approximates in
/-- One more step of fuel, by induction on the fuel: the two functions call each other with what is
left of it. -/
theorem lexEncapsed_lexEmbedded_succ (src : List UInt8) (fuel : Nat) :
    (∀ terminator line cursor, Approximates (lexEncapsed src fuel terminator line cursor)
        (lexEncapsed src (fuel + 1) terminator line cursor))
      ∧ ∀ depth line cursor, Approximates (lexEmbedded src fuel depth line cursor)
        (lexEmbedded src (fuel + 1) depth line cursor) := by
  induction fuel with
  | zero =>
    refine ⟨fun terminator line cursor => ?_, fun depth line cursor => ?_⟩
    · rw [lexEncapsed]
      exact error _ _
    · rw [lexEmbedded]
      exact error _ _
  | succ fuel ih =>
    obtain ⟨hbodies, hholes⟩ := ih
    refine ⟨fun terminator line cursor => ?_, fun depth line cursor => ?_⟩
    · rw [lexEncapsed, lexEncapsed]
      refine .bind (refl _) fun found => ?_
      rcases found with _ | ⟨i, _ | _ | _ | _⟩
      · exact refl _
      · exact refl _
      · exact .bind (refl _) fun _ => .bind (refl _) fun _ => hbodies _ _ _
      · exact .bind (refl _) fun _ => .bind (refl _) fun _ =>
          .bind (hholes _ _ _) fun _ => hbodies _ _ _
      · exact .bind (refl _) fun _ => .bind (refl _) fun _ =>
          .bind (hholes _ _ _) fun _ => hbodies _ _ _
    · rw [lexEmbedded, lexEmbedded]
      refine .ite (refl _) (.bind (lexToken_mono hbodies _) fun inner => ?_)
      cases inner.tokens.getLast? with
      | none => exact hholes _ _ _
      | some last =>
        exact .ite (hholes _ _ _) (.ite (.ite (refl _) (hholes _ _ _)) (hholes _ _ _))

theorem lexEncapsed_of_le {more : Nat} {terminator : Terminator} (hle : fuel ≤ more)
    (h : lexEncapsed src fuel terminator line cursor = .ok next) :
    lexEncapsed src more terminator line cursor = .ok next := by
  induction hle with
  | refl => exact h
  | step _ ih => exact (lexEncapsed_lexEmbedded_succ src _).1 _ _ _ _ ih

/-! ## Bodies that are read -/

theorem exists_of_bind_eq_ok {α β : Type} {result : Checked α} {f : α → Checked β} {b : β}
    (h : (result >>= f) = .ok b) : ∃ a, result = .ok a ∧ f a = .ok b := by
  cases result with
  | error fault => cases h
  | ok a => exact ⟨a, rfl, h⟩

theorem eq_ok_of_toOption {α : Type} {result : Checked α} {a : α} (h : result.toOption = some a) :
    result = .ok a := by
  cases result with
  | error fault => cases h
  | ok b => exact congrArg Except.ok (Option.some.inj h)

/-- Code in a string is read only up to a brace. -/
theorem exists_of_lexEmbedded {depth : Nat} (h : At src cursor.pos cs)
    (hfuel : src.length < cursor.pos + fuel)
    (hok : lexEmbedded src fuel (depth + 1) line cursor = .ok next) :
    ∃ front rest, cs = front ++ '\x7d' :: rest
      ∧ next.pos = cursor.pos + size (front ++ ['\x7d']) := by
  cases hin : cursor.inCode with
  | false =>
    cases fuel with
    | zero => cases hok
    | succ fuel =>
      rw [lexEmbedded_of_left (.inr hin)] at hok
      cases hok
  | true =>
    have hmatch := (bodies_and_holes_match src fuel).2 cursor cs depth line .code h hin hfuel
    rw [hok] at hmatch
    generalize hresult : Except.ok next = result at hmatch
    cases hmatch with
    | fails => cases hresult
    | @leads lexemes last rest context hleads hlast =>
      cases hresult
      obtain ⟨rfl, -⟩ := hlast
      have hspell : Lexeme.spell (lexemes ++ [⟨.punct, ['\x7d']⟩])
          = Lexeme.spell lexemes ++ ['\x7d'] := by simp
      refine ⟨Lexeme.spell lexemes, rest, ?_, ?_⟩
      · have hcut := hleads.covers.spelled
        rw [hspell, List.append_assoc] at hcut
        exact hcut.symm
      · rw [Cursor.after_pos, hspell]

/-- The body of a string with this text begins at `i` and ends at `j`. -/
def EndsAt (closer : Closer) (fresh : Bool) (cs : List Char) (i j : Nat) : Prop :=
  ∃ body onward, cs = body ++ onward ∧ j = i + size body ∧ Body.Ends closer fresh body onward

/-- With this much fuel a body is read only up to where it ends, wherever it begins. -/
def BodiesEnd (src : List UInt8) (closer : Closer) (fuel : Nat) : Prop :=
  ∀ (cursor next : Cursor) (cs : List Char) (line : Nat) (fresh : Bool), At src cursor.pos cs →
    src.length < cursor.pos + fuel →
    (∀ label, closer = .label label → lineBegins src cursor.pos = fresh) →
    lexEncapsed src fuel (.of closer) line cursor = .ok next →
    EndsAt closer fresh cs cursor.pos next.pos

namespace BodiesEnd

variable {text : List Char} {event : Body.Event}

/-- Behind a variable or a hole, of which the last character is known, the body goes on. -/
theorem past (hb : BodiesEnd src closer fuel) (h : At src cursor.pos cs)
    (hfuel : src.length < cursor.pos + (fuel + 1))
    (hs : Body.seek closer fresh cs = some (text, event)) (front rest : List Char) (last : Char)
    (hcs : cs = text ++ (front ++ last :: rest)) (hnewline : last ≠ '\n') (hback : last ≠ '\\')
    {inner : Cursor} (hinner : inner.pos = cursor.pos + size (text ++ front) + size [last])
    (hok : lexEncapsed src fuel (.of closer) line inner = .ok next) :
    EndsAt closer fresh cs cursor.pos next.pos := by
  have hlast : At src (cursor.pos + size (text ++ front)) (last :: rest) :=
    At.append (text ++ front) (by rwa [List.append_assoc, ← hcs])
  have hrest : At src inner.pos rest := hinner ▸ hlast.append [last]
  have hpos := size_singleton_pos last
  obtain ⟨body, onward, rfl, hnext, hends⟩ := hb inner next rest line false hrest (by omega)
    (fun _ _ => by rw [hinner, hlast.lineBegins, beq_eq_false_iff_ne.2 hnewline]) hok
  refine ⟨text ++ (front ++ last :: body), onward, by simp [hcs], ?_,
    .past (hcs ▸ hs) hback hends⟩
  rw [hnext, hinner]
  simp only [size_append, size_cons last body]
  omega

theorem succ (hb : BodiesEnd src closer fuel) : BodiesEnd src closer (fuel + 1) := by
  intro cursor next cs line fresh h hfuel hfresh hok
  cases hs : Body.seek closer fresh cs with
  | none =>
    rw [lexEncapsed_of_none h hfresh hs] at hok
    cases hok
  | some found =>
    obtain ⟨text, event⟩ := found
    obtain ⟨onward, hcut, hcovers⟩ := Body.seek_append hs
    have hspelled := hcovers.spelled
    cases event with
    | close lexemes rest =>
      rw [lexEncapsed_of_close h hfresh hs] at hok
      cases hok
      exact ⟨text, onward, hcut.symm, by simp, .close (hcut.symm ▸ hs)⟩
    | splice lexemes rest =>
      obtain ⟨front, last, hlast, hnewline, hback⟩ := Body.exists_last_of_splice hs
      rw [lexEncapsed_of_splice h hfresh hs] at hok
      refine hb.past h hfuel hs front rest last ?_ hnewline hback ?_ hok
      · rw [← hcut, ← hspelled]
        simp [Body.Event.lexemes, Body.Event.rest, hlast]
      · simp [hlast, Nat.add_assoc]
    | hole lexemes rest =>
      have hleads := leads_of_seek hs cursor line .code
      have hinside : At src (cursor.after (Lexeme.ofText .literal text ++ lexemes)).pos rest :=
        hleads.at_after h
      have hpos : cursor.pos < (cursor.after (Lexeme.ofText .literal text ++ lexemes)).pos :=
        hleads.pos_lt
      rw [lexEncapsed_of_hole h hfresh hs] at hok
      obtain ⟨inner, hinner, hok⟩ := exists_of_bind_eq_ok hok
      obtain ⟨front, after, rfl, hbrace⟩ := exists_of_lexEmbedded hinside (by omega) hinner
      refine hb.past h hfuel hs (Lexeme.spell lexemes ++ front) after '\x7d' ?_ (by decide)
        (by decide) ?_ hok
      · rw [← hcut, ← hspelled]
        simp [Body.Event.lexemes, Body.Event.rest]
      · rw [hbrace]
        simp [Nat.add_assoc]

end BodiesEnd

theorem bodies_end (src : List UInt8) (closer : Closer) (fuel : Nat) :
    BodiesEnd src closer fuel := by
  induction fuel with
  | zero =>
    intro cursor next cs line fresh h hfuel
    exact absurd h.le_length (by omega)
  | succ fuel ih => exact ih.succ

theorem endsAt_of_lexEncapsed (h : At src cursor.pos cs)
    (hfresh : ∀ label, closer = .label label → lineBegins src cursor.pos = fresh)
    (hok : lexEncapsed src fuel (.of closer) line cursor = .ok next) :
    EndsAt closer fresh cs cursor.pos next.pos := by
  have hmore := lexEncapsed_of_le (Nat.le_add_right fuel (src.length + 1)) hok
  exact bodies_end src closer _ cursor next cs line fresh h (by omega) hfresh hmore

/-! ## Places in the source -/

theorem At.of_sees {a : Char} (ha : a.toNat < 0x80) {i : Nat}
    (h : Bytes.sees (encode cs) i (· == a) = true) : ∃ rest, At (encode cs) i (a :: rest) := by
  obtain ⟨byte, hget, hbyte⟩ := (Option.any_eq_true ..).1 h
  have hfirst : Bytes.isBoundary (encode cs) i = true := by
    rw [Bytes.isBoundary, hget]
    by_cases hb : byte.IsUTF8FirstByte
    · exact decide_eq_true hb
    · rw [(Narrow.beq ha).is_eq_false (wide_of_not_first hb)] at hbyte
      cases hbyte
  obtain ⟨rest, hat⟩ := At.of_isBoundary hfirst
  rw [hat.sees (.beq ha)] at h
  obtain ⟨rest, rfl⟩ := headIs_beq.1 h
  exact ⟨rest, hat⟩

theorem At.take_eq {i : Nat} {text rest : List Char} (h : At src i (text ++ rest)) :
    (src.drop i).take (i + size text - i) = encode text := by
  rw [h.drop_eq, Nat.add_sub_cancel_left, encode_append, size, List.take_left]

theorem sees_of_headerAt {i : Nat} {header : Header} (h : headerAt src i = .ok (some header)) :
    sees src i (· == '<') = true := by
  obtain ⟨rest, hrest, h⟩ := exists_of_bind_eq_ok h
  split at h
  · cases h
  · next hmark =>
    unfold tail at hrest
    split at hrest
    · cases hrest
      have hprefix : (encode ['<', '<', '<']).isPrefixOf (src.drop i) = true := by simpa using hmark
      obtain ⟨more, hmore⟩ := List.isPrefixOf_iff_prefix.1 hprefix
      rw [sees, ← List.head?_drop, ← hmore]
      rfl
    · cases hrest

/-- Behind the opening line of a heredoc a line begins. -/
theorem exists_at_of_headerAt {i : Nat} {header : Header}
    (h : headerAt (encode cs) i = .ok (some header)) :
    ∃ label rest, header.label = encode (Label.chars label) ∧ At (encode cs) header.stop rest
      ∧ lineBegins (encode cs) header.stop = true := by
  obtain ⟨more, hat⟩ := At.of_sees (a := '<') (by decide) (sees_of_headerAt h)
  rw [headerAt_eq hat] at h
  obtain ⟨found, hfound, rfl⟩ := Option.map_eq_some_iff.1 (Except.ok.inj h)
  obtain ⟨front, hfront⟩ := Heredoc.header?_text hfound
  rw [← (Heredoc.header?_append hfound).1, hfront, List.append_assoc] at hat
  have hline : At (encode cs) (i + size front) ('\n' :: found.rest) := hat.append front
  refine ⟨found.label, found.rest, rfl, ?_, ?_⟩
  · rw [hfront, size_append, ← Nat.add_assoc]
    exact hline.append ['\n']
  · rw [hfront, size_append, ← Nat.add_assoc]
    exact hline.lineBegins

/-! ## Strings in double quotes -/

theorem At.closingQuote_eq {i : Nat} (h : At src i cs) :
    closingQuote Quoted.double i (src.drop i)
      = (Quoted.closingQuote? Quoted.double cs).map fun found => i + size found.1 := by
  rw [h.drop_eq, closingQuote_encode double_ascii]

theorem exists_closingQuote_of_lexEncapsed (h : At src cursor.pos cs)
    (hok : lexEncapsed src fuel (.quote Quoted.double) line cursor = .ok next) :
    ∃ c, closingQuote Quoted.double cursor.pos (src.drop cursor.pos) = some c ∧ c ≤ next.pos := by
  have hends : EndsAt .doubleQuote false cs cursor.pos next.pos := endsAt_of_lexEncapsed h nofun hok
  obtain ⟨body, onward, rfl, hnext, hends⟩ := hends
  obtain ⟨inside, rest, more, hinside, rfl⟩ := hends.closingQuote?
  refine ⟨cursor.pos + size inside, by rw [h.closingQuote_eq, hinside]; rfl, ?_⟩
  rw [hnext, size_append]
  omega

/-- Literal text up to some place is one token, or none where there is no text. -/
theorem tokens_after_ofText (cursor : Cursor) (text : List Char) :
    (cursor.after (Lexeme.ofText .literal text)).tokens
      = cursor.tokens ++ if cursor.pos + size text = cursor.pos then []
        else [⟨.literal, encode text, cursor.line⟩] := by
  cases text with
  | nil => simp [Lexeme.ofText]
  | cons c text =>
    have hsize := size_pos (List.cons_ne_nil c text)
    rw [if_neg (by omega)]
    simp [Lexeme.ofText, Cursor.after, Listing.Token.place, Token.of]

theorem lexEncapsed_of_closingQuote {c : Nat} (h : At src cursor.pos cs)
    (hc : closingQuote Quoted.double cursor.pos (src.drop cursor.pos) = some c)
    (hplain : hasInterpolation ((src.drop cursor.pos).take (c - cursor.pos)) = false)
    (fuel line : Nat) :
    ∃ next, lexEncapsed src (fuel + 1) (.quote Quoted.double) line cursor = .ok next
      ∧ next.pos = c
      ∧ next.tokens = cursor.tokens ++ if c = cursor.pos then []
        else [⟨.literal, (src.drop cursor.pos).take (c - cursor.pos), cursor.line⟩] := by
  rw [h.closingQuote_eq] at hc
  obtain ⟨⟨body, rest⟩, hbody, rfl⟩ := Option.map_eq_some_iff.1 hc
  have hslice : (src.drop cursor.pos).take (cursor.pos + size body - cursor.pos) = encode body :=
    At.take_eq ((Quoted.closingQuote?_append hbody).symm ▸ h)
  rw [hslice, hasInterpolation_encode] at hplain
  have hseek : Body.seek .doubleQuote false cs
      = some (body, .close [⟨.punct, [Quoted.double]⟩] rest) :=
    Body.seek_of_closingQuote? hbody hplain
  refine ⟨cursor.after (Lexeme.ofText .literal body),
    lexEncapsed_of_close h (by nofun) hseek, ?_, ?_⟩
  · simp
  · rw [hslice]
    exact tokens_after_ofText cursor body

/-- **The search for the closing quote agrees with the reading of the string.** Wherever a quote
stands in a source: if the body behind it is read up to some place, then the search finds a quote,
and no later; and if the search finds one and sees no interpolation before it, then the body is read
up to that quote, and the whole of it is one literal, or nothing if it is empty. -/
theorem closingQuote_agrees_with_lexEncapsed (source : String) (q : Nat) (cursor : Cursor)
    (hquote : sees (encode source.toList) q (· == Quoted.double) = true)
    (hpos : cursor.pos = q + 1) :
    let src := encode source.toList
    (∀ fuel line next, lexEncapsed src fuel (.quote Quoted.double) line cursor = .ok next →
        ∃ c, closingQuote Quoted.double (q + 1) (src.drop (q + 1)) = some c ∧ c ≤ next.pos)
      ∧ ∀ c, closingQuote Quoted.double (q + 1) (src.drop (q + 1)) = some c →
        hasInterpolation ((src.drop (q + 1)).take (c - (q + 1))) = false →
        ∀ fuel line, ∃ next,
          lexEncapsed src (fuel + 1) (.quote Quoted.double) line cursor = .ok next
            ∧ next.pos = c
            ∧ next.tokens = cursor.tokens ++ if c = q + 1 then []
              else [⟨.literal, (src.drop (q + 1)).take (c - (q + 1)), cursor.line⟩] := by
  obtain ⟨cs, hat⟩ := At.of_sees double_ascii hquote
  have h := hat.next double_ascii
  rw [← hpos] at h ⊢
  exact ⟨fun fuel line next hok => exists_closingQuote_of_lexEncapsed h hok,
    fun c hc hplain fuel line => lexEncapsed_of_closingQuote h hc hplain fuel line⟩

/-- Quotes behind a backslash: in a hole, where the search is misled, and in literal text. -/
theorem closingQuote_agrees_with_lexEncapsed_escaped :
    let src := encode "<?php \"\x7b$a[\\\"k\"]\x7d\" . \"a\\\"b\";".toList
    (∃ next, lexEncapsed src 20 (.quote Quoted.double) 1 { pos := 7, inCode := true } = .ok next
        ∧ next.pos = 17
        ∧ ∃ c, closingQuote Quoted.double 7 (src.drop 7) = some c ∧ c ≤ next.pos)
      ∧ ∃ next, lexEncapsed src 1 (.quote Quoted.double) 1 { pos := 22, inCode := true } = .ok next
        ∧ next.pos = 26
        ∧ next.tokens = [⟨.literal, encode "a\\\"b".toList, 1⟩] := by
  intro src
  have hhole := closingQuote_agrees_with_lexEncapsed
    "<?php \"\x7b$a[\\\"k\"]\x7d\" . \"a\\\"b\";" 6 { pos := 7, inCode := true }
    (by decide +kernel) rfl
  have hplain := closingQuote_agrees_with_lexEncapsed
    "<?php \"\x7b$a[\\\"k\"]\x7d\" . \"a\\\"b\";" 21 { pos := 22, inCode := true }
    (by decide +kernel) rfl
  refine ⟨?_, ?_⟩
  · have hpos : (lexEncapsed src 20 (.quote Quoted.double) 1
        { pos := 7, inCode := true }).toOption.map Cursor.pos = some 17 := by decide +kernel
    cases hok : lexEncapsed src 20 (.quote Quoted.double) 1 { pos := 7, inCode := true } with
    | error fault =>
      rw [hok] at hpos
      cases hpos
    | ok next =>
      rw [hok] at hpos
      exact ⟨next, rfl, Option.some.inj hpos, hhole.1 20 1 next hok⟩
  · obtain ⟨next, hok, hpos, htokens⟩ := hplain.2 26 (by decide +kernel) (by decide +kernel) 0 1
    exact ⟨next, hok, hpos, htokens.trans (by decide +kernel)⟩

/-! ## Heredocs -/

section Heredocs

variable {label : Label}

theorem exists_heredocCloseAt (h : At src next.pos cs)
    (hclose : (Heredoc.closeAt? label cs).isSome = true) :
    (∃ stop, heredocCloseAt src next.pos (encode label.chars) = .ok (some stop))
      ∧ ∀ line, ∃ closed, lexHeredocEnd src (encode label.chars) line next = .ok closed := by
  obtain ⟨found, hfound⟩ := Option.isSome_iff_exists.1 hclose
  refine ⟨⟨_, by rw [heredocCloseAt_eq h, hfound]; rfl⟩, fun line => ?_⟩
  refine ⟨next.after [⟨.grammar .endHeredoc, found.1⟩], ?_⟩
  rw [lexHeredocEnd_eq h, hfound]

variable (h : At src cursor.pos cs)
include h

theorem lexEncapsed_of_findHeredocClose (hfresh : lineBegins src cursor.pos = true) {c : Nat}
    (hfind : findHeredocClose src (encode label.chars) (src.length + 1) cursor.pos = .ok (some c))
    (hplain : hasInterpolation ((src.drop cursor.pos).take (c - cursor.pos)) = false)
    (fuel line : Nat) :
    ∃ next, lexEncapsed src (fuel + 1) (.heredoc (encode label.chars)) line cursor = .ok next
      ∧ next.pos = c ∧ flush src .literal c cursor = .ok next := by
  rw [findHeredocClose_eq label h (by omega), Except.ok.injEq] at hfind
  obtain ⟨⟨body, rest⟩, hbody, rfl⟩ := Option.map_eq_some_iff.1 hfind
  have hcut : At src cursor.pos (body ++ rest) := (Heredoc.untilClose?_append hbody).symm ▸ h
  rw [hcut.take_eq, hasInterpolation_encode] at hplain
  obtain ⟨found, -, hseek⟩ := Body.seek_of_untilClose? hbody hplain
  refine ⟨cursor.after (Lexeme.ofText .literal body), ?_, by simp, hcut.flush .literal⟩
  exact lexEncapsed_of_close h (fun _ _ => hfresh) hseek

theorem exists_heredocCloseAt_of_flush {c : Nat}
    (hfind : findHeredocClose src (encode label.chars) (src.length + 1) cursor.pos = .ok (some c))
    (hflush : flush src .literal c cursor = .ok next) :
    ∃ onward, At src next.pos onward ∧ (Heredoc.closeAt? label onward).isSome = true := by
  rw [findHeredocClose_eq label h (by omega), Except.ok.injEq] at hfind
  obtain ⟨⟨body, rest⟩, hbody, rfl⟩ := Option.map_eq_some_iff.1 hfind
  have hcut : At src cursor.pos (body ++ rest) := (Heredoc.untilClose?_append hbody).symm ▸ h
  cases (hcut.flush .literal).symm.trans hflush
  exact ⟨rest, hcut.after_ofText .literal, Heredoc.closeAt?_of_untilClose? hbody⟩

theorem exists_heredocCloseAt_of_lexEncapsed (hfresh : lineBegins src cursor.pos = true)
    (hok : lexEncapsed src fuel (.heredoc (encode label.chars)) line cursor = .ok next) :
    ∃ onward, At src next.pos onward ∧ (Heredoc.closeAt? label onward).isSome = true
      ∧ ∃ body, cs = body ++ onward ∧ (body = [] ∨ body.getLast? = some '\n') := by
  have hends : EndsAt (.label label) true cs cursor.pos next.pos :=
    endsAt_of_lexEncapsed h (fun _ _ => hfresh) hok
  obtain ⟨body, onward, rfl, hnext, hends⟩ := hends
  obtain ⟨hclose, hstart⟩ := hends.closesLine
  exact ⟨onward, hnext ▸ h.append body, hclose, body, rfl, hstart.imp_left And.left⟩

theorem not_lexEncapsed_of_findHeredocClose (hfresh : lineBegins src cursor.pos = true)
    (hfind : findHeredocClose src (encode label.chars) (src.length + 1) cursor.pos = .ok none) :
    lexEncapsed src fuel (.heredoc (encode label.chars)) line cursor ≠ .ok next := by
  intro hok
  obtain ⟨onward, -, hclose, body, rfl, hstart⟩ := exists_heredocCloseAt_of_lexEncapsed h hfresh hok
  rw [findHeredocClose_eq label h (by omega), Except.ok.injEq, Option.map_eq_none_iff] at hfind
  have hnone := Heredoc.closeAt?_eq_none_of_untilClose? hfind
    (hstart.imp_left fun hnil => ⟨hnil, rfl⟩)
  rw [hnone] at hclose
  cases hclose

end Heredocs

/-- **The search for the line that closes a heredoc agrees with the reading of its body.** Behind
the opening line of a heredoc: if the search finds a line and no interpolation is seen before it,
then the body is read up to that line, with the token that the text before it would be in a nowdoc;
if it finds none, then the body is not read; and whichever of the two has found where the body ends,
the label stands there. -/
theorem findHeredocClose_agrees_with_lexEncapsed (source : String) (i : Nat) (header : Header)
    (cursor : Cursor) (hheader : headerAt (encode source.toList) i = .ok (some header))
    (hpos : cursor.pos = header.stop) :
    let src := encode source.toList
    let found := findHeredocClose src header.label (src.length + 1) cursor.pos
    (∀ c, found = .ok (some c) →
        hasInterpolation ((src.drop cursor.pos).take (c - cursor.pos)) = false →
        ∀ fuel line, ∃ next,
          lexEncapsed src (fuel + 1) (.heredoc header.label) line cursor = .ok next
            ∧ next.pos = c ∧ flush src .literal c cursor = .ok next)
      ∧ (found = .ok none → ∀ fuel line next,
        lexEncapsed src fuel (.heredoc header.label) line cursor ≠ .ok next)
      ∧ ∀ next, ((∃ fuel line,
            lexEncapsed src fuel (.heredoc header.label) line cursor = .ok next)
          ∨ ∃ c, found = .ok (some c) ∧ flush src .literal c cursor = .ok next) →
        (∃ stop, heredocCloseAt src next.pos header.label = .ok (some stop))
          ∧ ∀ line, ∃ closed, lexHeredocEnd src header.label line next = .ok closed := by
  obtain ⟨label, rest, hlabel, h, hfresh⟩ := exists_at_of_headerAt hheader
  rw [← hpos] at h hfresh
  rw [hlabel]
  refine ⟨fun c hfind hplain => lexEncapsed_of_findHeredocClose h hfresh hfind hplain,
    fun hfind fuel line next => not_lexEncapsed_of_findHeredocClose h hfresh hfind, ?_⟩
  rintro next (⟨fuel, line, hok⟩ | ⟨c, hfind, hflush⟩)
  · obtain ⟨onward, hafter, hclose, -⟩ := exists_heredocCloseAt_of_lexEncapsed h hfresh hok
    exact exists_heredocCloseAt hafter hclose
  · obtain ⟨onward, hafter, hclose⟩ := exists_heredocCloseAt_of_flush h hfind hflush
    exact exists_heredocCloseAt hafter hclose

/-- A newline behind a backslash and a longer label come before the line that closes the heredoc; in
the other source no line does. -/
theorem findHeredocClose_agrees_with_lexEncapsed_escaped :
    let src := encode "<?php\n<<<A\nAB\\\n  A;".toList
    let unclosed := encode "<?php\n<<<A\nAB\\\n  AB;".toList
    (∃ next, lexEncapsed src 1 (.heredoc (encode ['A'])) 2 { pos := 11, inCode := true } = .ok next
        ∧ next.pos = 15
        ∧ flush src .literal 15 { pos := 11, inCode := true } = .ok next
        ∧ ∃ stop, heredocCloseAt src next.pos (encode ['A']) = .ok (some stop))
      ∧ ∀ fuel line next,
        lexEncapsed unclosed fuel (.heredoc (encode ['A'])) line { pos := 11, inCode := true }
          ≠ .ok next := by
  intro src unclosed
  have hheader : headerAt src 6 = .ok (some ⟨encode ['A'], false, 11⟩) :=
    eq_ok_of_toOption (by decide +kernel)
  have hclosed := findHeredocClose_agrees_with_lexEncapsed "<?php\n<<<A\nAB\\\n  A;" 6
    ⟨encode ['A'], false, 11⟩ { pos := 11, inCode := true } hheader rfl
  have hopen := findHeredocClose_agrees_with_lexEncapsed "<?php\n<<<A\nAB\\\n  AB;" 6
    ⟨encode ['A'], false, 11⟩ { pos := 11, inCode := true }
    (eq_ok_of_toOption (by decide +kernel)) rfl
  have hfind : findHeredocClose src (encode ['A']) (src.length + 1) 11 = .ok (some 15) :=
    eq_ok_of_toOption (by decide +kernel)
  obtain ⟨next, hok, hpos, hflush⟩ := hclosed.1 15 hfind (by decide +kernel) 0 2
  exact ⟨⟨next, hok, hpos, hflush, (hclosed.2.2 next (.inl ⟨1, 2, hok⟩)).1⟩,
    hopen.2.1 (eq_ok_of_toOption (by decide +kernel))⟩

end Listing.Bytes
