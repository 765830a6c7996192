import Listing.Lexer.Heredoc

/-!
# Bodies of strings in which variables are replaced

Inside such a string the reader looks for the next event: the end of the string, a variable written
as it is (perhaps with one offset or member), or an opening of code in braces. `seek` walks over
literal text to the next event, a backslash taking the character after it along.
-/

namespace Listing.Lexer.Body

open Text

/-- What ends a stretch of literal text, with the lexemes it brings and what is left. -/
inductive Event where
  /-- The end of the string. -/
  | close (lexemes : List Lexeme) (rest : List Char)
  /-- A variable; the string goes on. -/
  | splice (lexemes : List Lexeme) (rest : List Char)
  /-- An opening brace; code follows. -/
  | hole (lexemes : List Lexeme) (rest : List Char)

namespace Event

def lexemes : Event → List Lexeme
  | .close ls _ | .splice ls _ | .hole ls _ => ls

def rest : Event → List Char
  | .close _ cs | .splice _ cs | .hole _ cs => cs

end Event

/-- The mark that ends the string is next. `fresh` says that a line begins here. -/
def close? (closer : Closer) (fresh : Bool) (cs : List Char) : Option Event :=
  match closer with
  | .doubleQuote => (strip? [Quoted.double] cs).map (.close [⟨.punct, [Quoted.double]⟩])
  | .backtick => (strip? [Quoted.back] cs).map (.close [⟨.punct, [Quoted.back]⟩])
  | .label label =>
    if fresh then
      (Heredoc.closeAt? label cs).map fun found =>
        .close [⟨.grammar .endHeredoc, found.1⟩] found.2
    else none

/-- A key between brackets: kind, text and rest. -/
def key? : List Char → Option (Kind × List Char × List Char)
  | [] => none
  | c :: cs =>
    if c = '-' then
      if headIs Char.isDigit cs then
        some (.var .offset, c :: cs.takeWhile Char.isDigit, cs.dropWhile Char.isDigit)
      else none
    else if c.isDigit then
      some (.var .offset, c :: cs.takeWhile Char.isDigit, cs.dropWhile Char.isDigit)
    else if c = '$' then
      if headIs isNameStart cs then
        some (.variable_, c :: cs.takeWhile isNameChar, cs.dropWhile isNameChar)
      else none
    else if isNameStart c then
      some (.name, c :: cs.takeWhile isNameChar, cs.dropWhile isNameChar)
    else none

/-- One key in brackets. -/
def offset? (cs : List Char) : Option (List Lexeme × List Char) :=
  match strip? ['['] cs with
  | none => none
  | some inside =>
    match key? inside with
    | none => none
    | some (kind, text, after) =>
      (strip? [']'] after).map fun rest =>
        ([⟨.punct, ['[']⟩, ⟨kind, text⟩, ⟨.punct, [']']⟩], rest)

/-- One member, after `arrow`. -/
def member? (kind : Grammar) (arrow cs : List Char) : Option (List Lexeme × List Char) :=
  match strip? arrow cs with
  | none => none
  | some name =>
    if headIs isNameStart name then
      some ([⟨.grammar kind, arrow⟩, ⟨.name, name.takeWhile isNameChar⟩],
        name.dropWhile isNameChar)
    else none

/-- What a variable takes along: one offset, one member, or nothing. -/
def access (cs : List Char) : List Lexeme × List Char :=
  ((offset? cs).or ((member? .arrow ['-', '>'] cs).or
    (member? .nullsafeArrow ['?', '-', '>'] cs))).getD ([], cs)

/-- The name right after an opening dollar brace, when the brace or a bracket follows it. -/
def braced (cs : List Char) : List Lexeme × List Char :=
  if headIs isNameStart cs
      && headIs (fun c => c == '[' || c == '\x7d') (cs.dropWhile isNameChar) then
    ([⟨.var .braced, cs.takeWhile isNameChar⟩], cs.dropWhile isNameChar)
  else ([], cs)

/-- A variable or an opening brace is next. -/
def interpolation? : List Char → Option Event
  | c :: d :: cs =>
    if c = '$' then
      if isNameStart d then
        let tail := access ((d :: cs).dropWhile isNameChar)
        some (.splice (⟨.variable_, c :: (d :: cs).takeWhile isNameChar⟩ :: tail.1) tail.2)
      else if d = '\x7b' then
        let name := braced cs
        some (.hole (⟨.grammar .dollarCurlyOpen, [c, d]⟩ :: name.1) name.2)
      else none
    else if c = '\x7b' ∧ d = '$' then some (.hole [⟨.grammar .curlyOpen, [c]⟩] (d :: cs))
    else none
  | _ => none

/-- The event that is next. -/
def event? (closer : Closer) (fresh : Bool) (cs : List Char) : Option Event :=
  (close? closer fresh cs).or (interpolation? cs)

/-- The literal text before the next event, and the event. -/
def seek (closer : Closer) : Bool → List Char → Option (List Char × Event)
  | _, [] => none
  | fresh, c :: cs =>
    match event? closer fresh (c :: cs) with
    | some event => some ([], event)
    | none =>
      if c = '\\' then
        match cs with
        | [] => none
        | d :: ds => (seek closer (d == '\n') ds).map fun found => (c :: d :: found.1, found.2)
      else (seek closer (c == '\n') cs).map fun found => (c :: found.1, found.2)

/-! ## Nothing is lost -/

theorem key?_append {cs : List Char} {key : Kind × List Char × List Char} (h : key? cs = some key) :
    key.2.1 ++ key.2.2 = cs ∧ key.2.1 ≠ [] := by
  unfold key? at h
  repeat' split at h
  all_goals simp at h
  all_goals (subst h; simp)

theorem offset?_append {cs rest : List Char} {lexemes : List Lexeme}
    (h : offset? cs = some (lexemes, rest)) :
    Lexeme.spell lexemes ++ rest = cs ∧ ∀ lexeme ∈ lexemes, lexeme.text ≠ [] := by
  unfold offset? at h
  split at h
  · simp at h
  · next inside e =>
    split at h
    · simp at h
    · next kind text after hk =>
      obtain ⟨last, hl, he⟩ := Option.map_eq_some_iff.1 h
      simp only [Prod.mk.injEq] at he
      obtain ⟨rfl, rfl⟩ := he
      obtain ⟨happ, hne⟩ := key?_append hk
      have h1 := strip?_eq_some e
      have h2 := strip?_eq_some hl
      simp only [List.cons_append, List.nil_append] at h1 h2 happ
      exact ⟨by simp [h2, happ, h1], by simpa using hne⟩

theorem member?_append {kind : Grammar} {arrow cs rest : List Char} {lexemes : List Lexeme}
    (ha : arrow ≠ []) (h : member? kind arrow cs = some (lexemes, rest)) :
    Lexeme.spell lexemes ++ rest = cs ∧ ∀ lexeme ∈ lexemes, lexeme.text ≠ [] := by
  unfold member? at h
  split at h
  · simp at h
  · next name e =>
    split at h
    · next hs =>
      simp only [Option.some.injEq, Prod.mk.injEq] at h
      obtain ⟨rfl, rfl⟩ := h
      refine ⟨by simp [strip?_eq_some e], ?_⟩
      cases name with
      | nil => simp at hs
      | cons c cs => simp [ha, isNameChar_of_isNameStart hs]
    · simp at h

theorem access_append (cs : List Char) :
    Lexeme.spell (access cs).1 ++ (access cs).2 = cs
      ∧ ∀ lexeme ∈ (access cs).1, lexeme.text ≠ [] := by
  unfold access
  cases h1 : offset? cs with
  | some found => simpa using offset?_append h1
  | none =>
    cases h2 : member? .arrow ['-', '>'] cs with
    | some found => simpa using member?_append (by simp) h2
    | none =>
      cases h3 : member? .nullsafeArrow ['?', '-', '>'] cs with
      | some found => simpa using member?_append (by simp) h3
      | none => simp

theorem braced_append (cs : List Char) :
    Lexeme.spell (braced cs).1 ++ (braced cs).2 = cs
      ∧ ∀ lexeme ∈ (braced cs).1, lexeme.text ≠ [] := by
  unfold braced
  split
  · next h =>
    refine ⟨by simp, ?_⟩
    cases cs with
    | nil => simp at h
    | cons c cs =>
      have hc : isNameStart c = true := by simp at h; exact h.1
      simp [isNameChar_of_isNameStart hc]
  · simp

theorem interpolation?_covers {cs : List Char} {event : Event}
    (h : interpolation? cs = some event) : Covers event.lexemes event.rest cs := by
  unfold interpolation? at h
  split at h
  · next c d cs =>
    split at h
    · split at h
      · simp only [Option.some.injEq] at h
        subst h
        obtain ⟨happ, hne⟩ := access_append ((d :: cs).dropWhile isNameChar)
        refine ⟨?_, by simp [Event.lexemes], ?_⟩
        · simp only [Event.lexemes, Event.rest, Lexeme.spell_cons, List.append_assoc,
            List.cons_append]
          rw [happ, List.takeWhile_append_dropWhile]
        · simpa [Event.lexemes] using hne
      · split at h
        · simp only [Option.some.injEq] at h
          subst h
          obtain ⟨happ, hne⟩ := braced_append cs
          exact ⟨by simp [Event.lexemes, Event.rest, happ], by simp [Event.lexemes],
            by simpa [Event.lexemes] using hne⟩
        · simp at h
    · split at h
      · simp only [Option.some.injEq] at h
        subst h
        exact ⟨by simp [Event.lexemes, Event.rest], by simp [Event.lexemes],
          by simp [Event.lexemes]⟩
      · simp at h
  · simp at h

theorem close?_covers {closer : Closer} {fresh : Bool} {cs : List Char} {event : Event}
    (h : close? closer fresh cs = some event) : Covers event.lexemes event.rest cs := by
  unfold close? at h
  split at h
  · obtain ⟨rest, hr, rfl⟩ := Option.map_eq_some_iff.1 h
    exact ⟨by simpa [Event.lexemes, Event.rest] using strip?_eq_some hr, by simp [Event.lexemes],
      by simp [Event.lexemes]⟩
  · obtain ⟨rest, hr, rfl⟩ := Option.map_eq_some_iff.1 h
    exact ⟨by simpa [Event.lexemes, Event.rest] using strip?_eq_some hr, by simp [Event.lexemes],
      by simp [Event.lexemes]⟩
  · split at h
    · obtain ⟨found, hr, rfl⟩ := Option.map_eq_some_iff.1 h
      obtain ⟨happ, hne⟩ := Heredoc.closeAt?_append hr
      exact ⟨by simpa [Event.lexemes, Event.rest] using happ, by simp [Event.lexemes],
        by simpa [Event.lexemes] using hne⟩
    · simp at h

theorem event?_covers {closer : Closer} {fresh : Bool} {cs : List Char} {event : Event}
    (h : event? closer fresh cs = some event) : Covers event.lexemes event.rest cs := by
  rcases Option.or_eq_some_iff.1 h with h | ⟨-, h⟩
  · exact close?_covers h
  · exact interpolation?_covers h

/-- A body is cut without loss: literal text, then an event that covers the rest. -/
theorem seek_append {closer : Closer} {fresh : Bool} {cs text : List Char} {event : Event}
    (h : seek closer fresh cs = some (text, event)) :
    ∃ onward, text ++ onward = cs ∧ Covers event.lexemes event.rest onward := by
  fun_induction seek closer fresh cs generalizing text with
  | case1 => simp at h
  | case2 fresh c cs found he =>
    simp only [Option.some.injEq, Prod.mk.injEq] at h
    obtain ⟨rfl, rfl⟩ := h
    exact ⟨c :: cs, rfl, event?_covers he⟩
  | case3 => simp at h
  | case4 fresh d ds he ih =>
    obtain ⟨found, hf, hp⟩ := Option.map_eq_some_iff.1 h
    simp only [Prod.mk.injEq] at hp
    obtain ⟨rfl, rfl⟩ := hp
    obtain ⟨onward, happ, hcov⟩ := ih hf
    exact ⟨onward, by simp [happ], hcov⟩
  | case5 fresh c cs he hb ih =>
    obtain ⟨found, hf, hp⟩ := Option.map_eq_some_iff.1 h
    simp only [Prod.mk.injEq] at hp
    obtain ⟨rfl, rfl⟩ := hp
    obtain ⟨onward, happ, hcov⟩ := ih hf
    exact ⟨onward, by simp [happ], hcov⟩

end Listing.Lexer.Body
