import Listing.Proofs.Openers

/-!
# Where a string ends

Strings in which variables are replaced are read event by event, and what is written in their holes
is read as code. Some questions are answered without that, by a look at the text alone: whether a
string in double quotes is closed and whether it holds a variable, and on which line a heredoc ends.
Here such a look is compared with the reading of the whole string.

* Where no variable and no hole comes before the end, the two walk alongside each other: the first
  event is the closing mark that the look has found (`Body.seek_of_closingQuote?`,
  `Body.seek_of_untilClose?`).
* A variable or a hole ends with a character that is not a backslash (`exists_last_of_splice`), so
  that behind it no character is taken for an escaped one that is not. Whatever stands between, the
  look comes upon a quote no later than the string ends (`Body.Ends.closingQuote?`), and a heredoc
  ends only where a line begins that closes its label (`Body.Ends.closesLine`).
-/

namespace Listing.Lexer

open Text

/-! ## Quotes -/

namespace Quoted

/-- A text that holds no quote and ends with no backslash does not matter to the search. -/
theorem closingQuote?_append_of_none {quote : Char} {text : List Char}
    (h : closingQuote? quote text = none) (hlast : text.getLast? ≠ some '\\')
    (rest : List Char) :
    closingQuote? quote (text ++ rest)
      = (closingQuote? quote rest).map fun found => (text ++ found.1, found.2) := by
  fun_induction closingQuote? quote text with
  | case1 => simp
  | case2 => exact absurd rfl hlast
  | case3 d ds ih =>
    have hds : ds.getLast? ≠ some '\\' := by
      intro hds
      exact hlast (by simp [List.getLast?_cons, hds])
    rw [List.cons_append, List.cons_append, closingQuote?, if_pos rfl,
      ih (Option.map_eq_none_iff.1 h) hds, Option.map_map]
    rfl
  | case4 => cases h
  | case5 c cs hb hq ih =>
    have hcs : cs.getLast? ≠ some '\\' := by
      intro hcs
      exact hlast (by simp [List.getLast?_cons, hcs])
    rw [List.cons_append, closingQuote?_cons_of_ne hb, if_neg hq,
      ih (Option.map_eq_none_iff.1 h) hcs, Option.map_map]
    rfl

theorem hasInterpolation_cons_of_ne {c : Char} (hb : c ≠ '\\') (cs : List Char) :
    hasInterpolation (c :: cs) = (beginsInterpolation (c :: cs) || hasInterpolation cs) := by
  cases cs <;> simp [hasInterpolation, hb]

end Quoted

/-! ## Lines of a heredoc -/

/-- A line begins behind a body that ends with a newline, or is empty where one begins. -/
theorem getLast?_of_lineStart {front body : List Char} {fresh : Bool}
    (hfresh : fresh = true → front.getLast? = some '\n')
    (h : body = [] ∧ fresh = true ∨ body.getLast? = some '\n') :
    (front ++ body).getLast? = some '\n' := by
  rcases h with ⟨rfl, htrue⟩ | hlast
  · rw [List.append_nil]
    exact hfresh htrue
  · rw [List.getLast?_append, hlast]
    rfl

theorem getLast?_of_beq_newline {front : List Char} {c : Char} (h : (c == '\n') = true) :
    (front ++ [c]).getLast? = some '\n' := by
  rw [List.getLast?_concat, eq_of_beq h]

namespace Heredoc

/-- A line that closes a label is found only where a line begins. -/
theorem lineStart_of_untilClose? {label : Label} {fresh : Bool}
    {cs body line : List Char}
    (h : untilClose? label fresh cs = some (body, line)) :
    body = [] ∧ fresh = true ∨ body.getLast? = some '\n' := by
  induction cs generalizing fresh body with
  | nil => cases h
  | cons c cs ih =>
    rw [untilClose?] at h
    split at h
    · next hclose =>
      cases h
      exact .inl ⟨rfl, (Bool.and_eq_true_iff.1 hclose).1⟩
    · obtain ⟨found, hf, he⟩ := Option.map_eq_some_iff.1 h
      cases he
      have hlast : ([] ++ [c] ++ found.1).getLast? = some '\n' :=
        getLast?_of_lineStart getLast?_of_beq_newline (ih hf)
      exact .inr hlast

/-- How an opening line is spelled. -/
theorem header?_text_eq {cs : List Char} {header : Header} (h : header? cs = some header) :
    ∃ blanks quotes, (∀ c ∈ blanks, isBlank c = true)
      ∧ (quotes = [] ∨ quotes = [Quoted.double] ∨ quotes = [Quoted.single])
      ∧ header.text = '<' :: '<' :: '<' ::
        (blanks ++ (quotes ++ (header.label.chars ++ (quotes ++ ['\n'])))) := by
  obtain ⟨quotes, hopens, -⟩ := header?_opens h
  obtain ⟨blanks, hblanks, hspelled⟩ := hopens.spelled
  refine ⟨blanks, quotes, hblanks, hopens.quoted, ?_⟩
  rw [← (header?_append h).1] at hspelled
  exact List.append_cancel_right (hspelled.trans (by simp))

theorem header?_text {cs : List Char} {header : Header} (h : header? cs = some header) :
    ∃ front, header.text = front ++ ['\n'] := by
  obtain ⟨blanks, quotes, -, -, htext⟩ := header?_text_eq h
  refine ⟨'<' :: '<' :: '<' :: (blanks ++ (quotes ++ (header.label.chars ++ quotes))), ?_⟩
  rw [htext]
  simp

end Heredoc

/-- Only the opening line of a heredoc leads into a body that a label closes. -/
theorem Code.scan_enter_label {previous : Option Kind} {cs : List Char} {found : Scan}
    {label : Label} (hne : cs ≠ []) (h : scan previous cs = .ok found)
    (hturn : found.turn = .enter (.label label)) :
    ∃ header, Heredoc.header? cs = some header ∧ header.label = label
      ∧ found.lexemes = [⟨.grammar .startHeredoc, header.text⟩] := by
  rcases scan_cases hne h with hplain | hheredoc | ⟨hleave, -⟩
  · cases hplain with
    | one => cases hturn
    | string => cases hturn
    | enter _ hlabel =>
      cases hturn
      exact absurd rfl (hlabel label)
  · obtain ⟨header, hheader, rfl | ⟨body, line, closing, -, -, rfl⟩⟩ := Heredoc.rule_cases hheredoc
    · cases hturn
      exact ⟨header, hheader, rfl, rfl⟩
    · cases hturn
  · rw [hleave] at hturn
    cases hturn

/-! ## Variables -/

namespace Body

theorem offset?_notMem {a : Char} (ha : Foreign a) {cs rest : List Char} {lexemes : List Lexeme}
    (h : offset? cs = some (lexemes, rest)) : a ∉ Lexeme.spell lexemes := by
  unfold offset? at h
  split at h
  · cases h
  · split at h
    · cases h
    · next kind text after hk =>
      obtain ⟨last, -, he⟩ := Option.map_eq_some_iff.1 h
      cases he
      have hkey := key?_notMem ha hk
      have hmark := ha.2
      simp only [List.mem_cons, List.not_mem_nil, not_or, or_false] at hmark
      simpa [hmark] using hkey

theorem member?_notMem {a : Char} (ha : Foreign a) {kind : Grammar} {arrow cs rest : List Char}
    {lexemes : List Lexeme} (harrow : a ∉ arrow)
    (h : member? kind arrow cs = some (lexemes, rest)) : a ∉ Lexeme.spell lexemes := by
  unfold member? at h
  split at h
  · cases h
  · split at h
    · cases h
      simp [harrow, ha.notMem_takeWhile]
    · cases h

theorem access_notMem {a : Char} (ha : Foreign a) (cs : List Char) :
    a ∉ Lexeme.spell (access cs).1 := by
  have hmark := ha.2
  simp only [List.mem_cons, List.not_mem_nil, not_or, or_false] at hmark
  unfold access
  cases h1 : offset? cs with
  | some found => simpa using offset?_notMem ha h1
  | none =>
    cases h2 : member? .arrow ['-', '>'] cs with
    | some found => simpa using member?_notMem ha (by simp [hmark]) h2
    | none =>
      cases h3 : member? .nullsafeArrow ['?', '-', '>'] cs with
      | some found => simpa using member?_notMem ha (by simp [hmark]) h3
      | none => simp

/-- A variable in a string, with what it takes along. -/
theorem splice_notMem {a : Char} (ha : Foreign a) {cs rest : List Char} {lexemes : List Lexeme}
    (h : interpolation? cs = some (.splice lexemes rest)) : a ∉ Lexeme.spell lexemes := by
  have hmark := ha.2
  simp only [List.mem_cons, List.not_mem_nil, not_or, or_false] at hmark
  rcases interpolation?_cases h with ⟨d, ds, -, heq⟩ | ⟨ds, -, heq⟩ | ⟨ds, -, heq⟩
  · cases heq
    rw [Lexeme.spell_cons, List.mem_append, List.mem_cons, not_or, not_or]
    exact ⟨⟨hmark.1, ha.notMem_takeWhile _⟩, access_notMem ha _⟩
  · cases heq
  · cases heq

/-- A variable ends neither a line nor in a backslash. -/
theorem exists_last_of_splice {closer : Closer} {fresh : Bool} {cs text rest : List Char}
    {lexemes : List Lexeme} (h : seek closer fresh cs = some (text, .splice lexemes rest)) :
    ∃ front last, Lexeme.spell lexemes = front ++ [last] ∧ last ≠ '\n' ∧ last ≠ '\\' := by
  obtain ⟨onward, fresh', -, he⟩ := exists_onward_of_seek h
  have hsplice := interpolation?_of_event? he nofun
  have hcovers := interpolation?_covers hsplice
  obtain ⟨front, last, hlast⟩ := (List.eq_nil_or_concat (Lexeme.spell lexemes)).resolve_left
    hcovers.spell_ne_nil
  rw [List.concat_eq_append] at hlast
  have hmem : last ∈ Lexeme.spell lexemes := by simp [hlast]
  refine ⟨front, last, hlast, ?_, ?_⟩
  · rintro rfl
    exact splice_notMem foreign_newline hsplice hmem
  · rintro rfl
    exact splice_notMem foreign_backslash hsplice hmem

/-! ## The first event -/

theorem isSome_interpolation? (cs : List Char) :
    (interpolation? cs).isSome = Quoted.beginsInterpolation cs := by
  rcases cs with _ | ⟨c, _ | ⟨d, cs⟩⟩
  · rfl
  · simp [interpolation?, Quoted.beginsInterpolation_cons]
  · rw [Quoted.beginsInterpolation_cons, headIs_cons, headIs_cons, interpolation?]
    by_cases hd : c = '$'
    · rw [if_pos hd, hd]
      cases hn : isNameStart d with
      | true => simp
      | false => by_cases hb : d = '\x7b' <;> simp [hb]
    · rw [if_neg hd]
      by_cases hb : c = '\x7b'
      · by_cases hs : d = '$' <;> simp [hb, hs]
      · simp [hd, hb]

/-- Whether an interpolation begins is seen in two characters. -/
theorem interpolation?_append_eq_none {c : Char} {body rest : List Char}
    (h : Quoted.beginsInterpolation (c :: body) = false)
    (hend : body = [] → Quoted.beginsInterpolation (c :: rest) = false) :
    interpolation? (c :: (body ++ rest)) = none := by
  rw [← Option.isNone_iff_eq_none, ← Option.isSome_eq_false_iff, isSome_interpolation?]
  cases body with
  | nil => exact hend rfl
  | cons d body =>
    rw [← h, Quoted.beginsInterpolation_cons, Quoted.beginsInterpolation_cons]
    rfl

theorem closingQuote?_of_seek {fresh : Bool} {cs text : List Char} {event : Event}
    (h : seek .doubleQuote fresh cs = some (text, event)) :
    ∃ onward fresh', text ++ onward = cs ∧ event? .doubleQuote fresh' onward = some event
      ∧ Quoted.closingQuote? Quoted.double cs
        = (Quoted.closingQuote? Quoted.double onward).map fun found =>
          (text ++ found.1, found.2) := by
  fun_induction seek Closer.doubleQuote fresh cs generalizing text with
  | case1 => cases h
  | case2 fresh c cs found he =>
    cases h
    exact ⟨c :: cs, fresh, rfl, he, by simp⟩
  | case3 => cases h
  | case4 fresh d ds he ih =>
    obtain ⟨found, hf, hp⟩ := Option.map_eq_some_iff.1 h
    cases hp
    obtain ⟨onward, fresh', happ, hevent, hquote⟩ := ih hf
    refine ⟨onward, fresh', by rw [← happ]; rfl, hevent, ?_⟩
    rw [Quoted.closingQuote?, if_pos rfl, hquote, Option.map_map]
    rfl
  | case5 fresh c cs he hb ih =>
    obtain ⟨found, hf, hp⟩ := Option.map_eq_some_iff.1 h
    cases hp
    obtain ⟨onward, fresh', happ, hevent, hquote⟩ := ih hf
    have hc : c ≠ Quoted.double := by
      rintro rfl
      cases he
    refine ⟨onward, fresh', by rw [← happ]; rfl, hevent, ?_⟩
    rw [Quoted.closingQuote?_cons_of_ne hb, if_neg hc, hquote, Option.map_map]
    rfl

theorem close?_doubleQuote_of_ne {fresh : Bool} {c : Char} (hc : c ≠ Quoted.double)
    (cs : List Char) : close? .doubleQuote fresh (c :: cs) = none := by
  rw [close?, strip?, if_neg (Ne.symm hc)]
  rfl

theorem seek_of_closingQuote? {fresh : Bool} {cs body rest : List Char}
    (h : Quoted.closingQuote? Quoted.double cs = some (body, rest))
    (hplain : Quoted.hasInterpolation body = false) :
    seek .doubleQuote fresh cs
      = some (body, .close [⟨.punct, [Quoted.double]⟩] rest) := by
  fun_induction Quoted.closingQuote? Quoted.double cs generalizing fresh body with
  | case1 => cases h
  | case2 => cases h
  | case3 d ds ih =>
    obtain ⟨found, hf, hp⟩ := Option.map_eq_some_iff.1 h
    cases hp
    have hevent : event? .doubleQuote fresh ('\\' :: d :: ds) = none := rfl
    rw [Quoted.hasInterpolation, if_pos rfl] at hplain
    rw [seek, hevent]
    dsimp only
    rw [if_pos rfl, ih hf hplain]
    rfl
  | case4 cs hb =>
    cases h
    rfl
  | case5 c cs hb hq ih =>
    obtain ⟨found, hf, hp⟩ := Option.map_eq_some_iff.1 h
    cases hp
    have hcs := Quoted.closingQuote?_append hf
    rw [Quoted.hasInterpolation_cons_of_ne hb, Bool.or_eq_false_iff] at hplain
    have hevent : event? .doubleQuote fresh (c :: cs) = none := by
      rw [event?, close?_doubleQuote_of_ne hq, Option.none_or, ← hcs]
      refine interpolation?_append_eq_none hplain.1 fun _ => ?_
      have hname : headIs (fun c => isNameStart c || c == '\x7b') (Quoted.double :: found.2)
          = false := rfl
      have hdollar : headIs (· == '$') (Quoted.double :: found.2) = false := rfl
      rw [Quoted.beginsInterpolation_cons, hname, hdollar, Bool.and_false, Bool.and_false]
      rfl
    rw [seek_cons_of_ne hb hevent, ih hf hplain.2]
    rfl

theorem untilClose?_cons_of_event? {label : Label} {fresh : Bool} {c : Char} {cs : List Char}
    (he : event? (.label label) fresh (c :: cs) = none) :
    Heredoc.untilClose? label fresh (c :: cs)
      = (Heredoc.untilClose? label (c == '\n') cs).map fun found => (c :: found.1, found.2) := by
  rw [Heredoc.untilClose?, if_neg]
  intro hclose
  obtain ⟨rfl, hclose⟩ := Bool.and_eq_true_iff.1 hclose
  obtain ⟨found, hfound⟩ := Option.isSome_iff_exists.1 hclose
  simp [event?, close?, hfound] at he

/-- Where a body holds no interpolation, one event alone can come before the line is over. -/
theorem event?_of_untilClose? {label : Label} {fresh : Bool} {c : Char} {cs body line : List Char}
    {event : Event} (h : Heredoc.untilClose? label fresh (c :: cs) = some (body, line))
    (hplain : Quoted.hasInterpolation body = false)
    (he : event? (.label label) fresh (c :: cs) = some event) :
    ∃ found, Heredoc.closeAt? label (c :: cs) = some found
      ∧ body = [] ∧ line = c :: cs ∧ event = .close [⟨.grammar .endHeredoc, found.1⟩] found.2 := by
  rw [Heredoc.untilClose?] at h
  split at h
  · next hclose =>
    cases h
    obtain ⟨rfl, hclose⟩ := Bool.and_eq_true_iff.1 hclose
    obtain ⟨found, hfound⟩ := Option.isSome_iff_exists.1 hclose
    refine ⟨found, hfound, rfl, rfl, ?_⟩
    simpa [event?, close?, hfound, eq_comm] using he
  · next hopen =>
    exfalso
    obtain ⟨found, hf, hp⟩ := Option.map_eq_some_iff.1 h
    cases hp
    have hnone : interpolation? (c :: cs) = none := by
      by_cases hb : c = '\\'
      · subst hb
        cases cs <;> rfl
      · rw [Quoted.hasInterpolation_cons_of_ne hb, Bool.or_eq_false_iff] at hplain
        rw [← Heredoc.untilClose?_append hf]
        refine interpolation?_append_eq_none hplain.1 fun hnil => ?_
        have hline := Heredoc.lineStart_of_untilClose? hf
        rw [hnil] at hline
        have hc : c = '\n' := by simpa using hline
        rw [hc]
        rfl
    have hclose : close? (.label label) fresh (c :: cs) = none := by
      cases fresh with
      | false => rfl
      | true => simpa [close?] using hopen
    rw [event?, hclose, hnone] at he
    cases he

theorem seek_of_untilClose? {label : Label} {fresh : Bool} {cs body line : List Char}
    (h : Heredoc.untilClose? label fresh cs = some (body, line))
    (hplain : Quoted.hasInterpolation body = false) :
    ∃ found, Heredoc.closeAt? label line = some found
      ∧ seek (.label label) fresh cs
        = some (body, .close [⟨.grammar .endHeredoc, found.1⟩] found.2) := by
  fun_induction seek (Closer.label label) fresh cs generalizing body with
  | case1 => cases h
  | case2 fresh c cs event he =>
    obtain ⟨found, hfound, rfl, rfl, rfl⟩ := event?_of_untilClose? h hplain he
    exact ⟨found, hfound, rfl⟩
  | case3 fresh he =>
    rw [untilClose?_cons_of_event? he] at h
    cases h
  | case4 fresh d ds he ih =>
    rw [untilClose?_cons_of_event? he] at h
    obtain ⟨⟨inner, line⟩, hf, hp⟩ := Option.map_eq_some_iff.1 h
    cases hp
    -- no line begins behind a backslash
    have hback : ('\\' == '\n') = false := rfl
    rw [hback, Heredoc.untilClose?, Bool.false_and, if_neg (by simp)] at hf
    obtain ⟨⟨inner, line⟩, hds, hp⟩ := Option.map_eq_some_iff.1 hf
    cases hp
    rw [Quoted.hasInterpolation, if_pos rfl] at hplain
    obtain ⟨closing, hclose, hseek⟩ := ih hds hplain
    exact ⟨closing, hclose, by rw [hseek]; rfl⟩
  | case5 fresh c cs he hb ih =>
    rw [untilClose?_cons_of_event? he] at h
    obtain ⟨found, hf, hp⟩ := Option.map_eq_some_iff.1 h
    cases hp
    rw [Quoted.hasInterpolation_cons_of_ne hb, Bool.or_eq_false_iff] at hplain
    obtain ⟨closing, hclose, hseek⟩ := ih hf hplain.2
    exact ⟨closing, hclose, by rw [hseek]; rfl⟩

theorem lineStart_of_seek {label : Label} {fresh : Bool} {cs text rest : List Char}
    {lexemes : List Lexeme} (h : seek (.label label) fresh cs = some (text, .close lexemes rest)) :
    ∃ line found, text ++ line = cs ∧ Heredoc.closeAt? label line = some found
      ∧ lexemes = [⟨.grammar .endHeredoc, found.1⟩] ∧ rest = found.2
      ∧ (text = [] ∧ fresh = true ∨ text.getLast? = some '\n') := by
  fun_induction seek (Closer.label label) fresh cs generalizing text with
  | case1 => cases h
  | case2 fresh c cs event he =>
    cases h
    have hclose := close?_of_event? he
    cases fresh with
    | false => cases hclose
    | true =>
      obtain ⟨found, hfound, hf⟩ := Option.map_eq_some_iff.1 hclose
      cases hf
      exact ⟨c :: cs, found, rfl, hfound, rfl, rfl, .inl ⟨rfl, rfl⟩⟩
  | case3 => cases h
  | case4 fresh d ds he ih =>
    obtain ⟨⟨front, next⟩, hf, hp⟩ := Option.map_eq_some_iff.1 h
    cases hp
    obtain ⟨line, closing, happ, hclose, hlexemes, hrest, hstart⟩ := ih hf
    have hlast : (['\\'] ++ [d] ++ front).getLast? = some '\n' :=
      getLast?_of_lineStart getLast?_of_beq_newline hstart
    exact ⟨line, closing, by rw [← happ]; rfl, hclose, hlexemes, hrest, .inr hlast⟩
  | case5 fresh c cs he hb ih =>
    obtain ⟨⟨front, next⟩, hf, hp⟩ := Option.map_eq_some_iff.1 h
    cases hp
    obtain ⟨line, closing, happ, hclose, hlexemes, hrest, hstart⟩ := ih hf
    have hlast : ([] ++ [c] ++ front).getLast? = some '\n' :=
      getLast?_of_lineStart getLast?_of_beq_newline hstart
    exact ⟨line, closing, by rw [← happ]; rfl, hclose, hlexemes, hrest, .inr hlast⟩

/-! ## The whole body -/

/-- A body up to its closing mark. -/
inductive Ends (closer : Closer) : Bool → List Char → List Char → Prop
  | close {fresh : Bool} {text onward rest : List Char} {lexemes : List Lexeme} :
      seek closer fresh (text ++ onward) = some (text, .close lexemes rest) →
      Ends closer fresh text onward
  | past {fresh : Bool} {text front body onward : List Char} {last : Char} {event : Event} :
      seek closer fresh (text ++ (front ++ last :: (body ++ onward))) = some (text, event) →
      last ≠ '\\' → Ends closer false body onward →
      Ends closer fresh (text ++ (front ++ last :: body)) onward

/-- Whatever stands in the holes of a string in double quotes, the search has found a quote by the
time the string ends. -/
theorem Ends.closingQuote? {fresh : Bool} {body onward : List Char}
    (h : Ends .doubleQuote fresh body onward) :
    ∃ inside rest more, Quoted.closingQuote? Quoted.double (body ++ onward) = some (inside, rest)
      ∧ body = inside ++ more := by
  induction h with
  | @close fresh text onward rest lexemes hs =>
    obtain ⟨onward', fresh', happ, he, hquote⟩ := closingQuote?_of_seek hs
    cases List.append_cancel_left happ
    obtain ⟨rest', hstrip, -⟩ := Option.map_eq_some_iff.1 (close?_of_event? he)
    rw [← strip?_eq_some hstrip, List.singleton_append] at hquote ⊢
    rw [Quoted.closingQuote?_cons_of_ne (by decide), if_pos rfl] at hquote
    exact ⟨text ++ [], _, [], hquote, by simp⟩
  | @past fresh text front body onward last event hs hlast hends ih =>
    obtain ⟨inside, rest, more, hinside, rfl⟩ := ih
    obtain ⟨onward', fresh', happ, he, hquote⟩ := closingQuote?_of_seek hs
    cases List.append_cancel_left happ
    have hcut : ∀ tail : List Char, front ++ last :: tail = (front ++ [last]) ++ tail := by simp
    rw [hcut] at hquote
    rw [hcut, List.append_assoc, List.append_assoc, hquote]
    -- the search may find a quote in the hole; else it goes on where the body does
    cases hover : Quoted.closingQuote? Quoted.double (front ++ [last]) with
    | some found =>
      have hfound := Quoted.closingQuote?_append hover
      rw [Quoted.closingQuote?_append_right hover]
      refine ⟨_, _, Quoted.double :: found.2 ++ (inside ++ more), rfl, ?_⟩
      rw [← hfound]
      simp
    | none =>
      rw [Quoted.closingQuote?_append_of_none hover (by simpa using hlast), hinside]
      exact ⟨_, _, more, rfl, by simp⟩

/-- The body of a heredoc ends where a line begins that closes the label. -/
theorem Ends.closesLine {label : Label} {fresh : Bool} {body onward : List Char}
    (h : Ends (.label label) fresh body onward) :
    (Heredoc.closeAt? label onward).isSome = true
      ∧ (body = [] ∧ fresh = true ∨ body.getLast? = some '\n') := by
  induction h with
  | close hs =>
    obtain ⟨line, found, happ, hclose, -, -, hstart⟩ := lineStart_of_seek hs
    cases List.append_cancel_left happ
    exact ⟨by simp [hclose], hstart⟩
  | past hs hlast hends ih =>
    obtain ⟨hclose, ⟨-, hfalse⟩ | hend⟩ := ih
    · cases hfalse
    · exact ⟨hclose, .inr (by simp [List.getLast?_append, List.getLast?_cons, hend])⟩

end Body

end Listing.Lexer
