import Listing.Lexer.Scan

/-!
# Quoted strings

A backslash takes the character after it along, so the closing quote is the first quote that no
backslash takes (`closingQuote?`). A string in which nothing is replaced is one lexeme, or, when it
runs over lines, quote, body and quote, so that the body can be cut at a line end. A string in
double quotes that holds an interpolation is only opened here; its body is read piece by piece.
-/

namespace Listing.Lexer.Quoted

open Text

/-- The single quote. -/
def single : Char := '\x27'

/-- The double quote. -/
def double : Char := '\x22'

/-- The quote of commands. -/
def back : Char := '\x60'

/-- The text up to the closing quote, and what follows that quote. -/
def closingQuote? (quote : Char) : List Char → Option (List Char × List Char)
  | [] => none
  | c :: cs =>
    if c = '\\' then
      match cs with
      | [] => none
      | d :: ds => (closingQuote? quote ds).map fun found => (c :: d :: found.1, found.2)
    else if c = quote then some ([], cs)
    else (closingQuote? quote cs).map fun found => (c :: found.1, found.2)

/-- A variable, or code in braces, begins here. -/
def beginsInterpolation : List Char → Bool
  | '$' :: c :: _ => isNameStart c || c == '\x7b'
  | '\x7b' :: c :: _ => c == '$'
  | _ => false

/-- An interpolation begins somewhere that no backslash takes. -/
def hasInterpolation : List Char → Bool
  | [] => false
  | c :: cs =>
    if c = '\\' then
      match cs with
      | [] => false
      | _ :: ds => hasInterpolation ds
    else beginsInterpolation (c :: cs) || hasInterpolation cs

/-- The lexemes of a string in which nothing is replaced. -/
def plain (opening body : List Char) (quote : Char) : List Lexeme :=
  if '\n' ∈ body then
    [⟨.punct, opening⟩, ⟨.literal, body⟩, ⟨.punct, [quote]⟩]
  else [⟨.quoted .whole, opening ++ body ++ [quote]⟩]

/-- An opening quote, perhaps with the letter of a binary string before it. -/
def opening? (quote : Char) : List Char → Option (List Char × List Char)
  | [] => none
  | c :: cs =>
    if c = quote then some ([c], cs)
    else if c = 'b' ∨ c = 'B' then
      match cs with
      | [] => none
      | d :: ds => if d = quote then some ([c, d], ds) else none
    else none

/-- A string in single quotes: nothing in it is replaced. -/
def singleQuoted : Rule := fun _ cs =>
  match opening? single cs with
  | none => none
  | some (opening, inside) =>
    match closingQuote? single inside with
    | none => some (.error .string)
    | some (body, rest) => some (.ok { lexemes := plain opening body single, rest })

/-- A string in double quotes. -/
def doubleQuoted : Rule := fun _ cs =>
  match opening? double cs with
  | none => none
  | some (opening, inside) =>
    match closingQuote? double inside with
    | none => some (.error .string)
    | some (body, rest) =>
      if hasInterpolation body then some (.ok ⟨[⟨.punct, opening⟩], inside, .enter .doubleQuote⟩)
      else some (.ok { lexemes := plain opening body double, rest })

/-- A command in back quotes. -/
def backQuoted : Rule := fun _ cs =>
  match strip? [back] cs with
  | none => none
  | some inside => some (.ok ⟨[⟨.punct, [back]⟩], inside, .enter .backtick⟩)

/-! ## Nothing is lost -/

theorem closingQuote?_append {quote : Char} {cs body rest : List Char}
    (h : closingQuote? quote cs = some (body, rest)) : body ++ quote :: rest = cs := by
  fun_induction closingQuote? quote cs generalizing body with
  | case1 => simp at h
  | case2 => simp at h
  | case3 d ds ih =>
    obtain ⟨found, hf, he⟩ := Option.map_eq_some_iff.1 h
    obtain ⟨rfl, rfl⟩ := Prod.mk.injEq .. ▸ he
    simp [ih hf]
  | case4 cs hb =>
    simp only [Option.some.injEq, Prod.mk.injEq] at h
    obtain ⟨rfl, rfl⟩ := h
    rfl
  | case5 c cs hb hq ih =>
    obtain ⟨found, hf, he⟩ := Option.map_eq_some_iff.1 h
    obtain ⟨rfl, rfl⟩ := Prod.mk.injEq .. ▸ he
    simp [ih hf]

theorem opening?_append {quote : Char} {cs opening rest : List Char}
    (h : opening? quote cs = some (opening, rest)) : opening ++ rest = cs ∧ opening ≠ [] := by
  unfold opening? at h
  repeat' split at h
  all_goals simp at h
  all_goals (obtain ⟨rfl, rfl⟩ := h; simp)

theorem spell_plain (opening body : List Char) (quote : Char) :
    Lexeme.spell (plain opening body quote) = opening ++ body ++ [quote] := by
  unfold plain
  split <;> simp

theorem plain_covers {opening body rest cs inside : List Char} {quote : Char}
    (hopen : opening ++ inside = cs) (hne : opening ≠ [])
    (hclose : body ++ quote :: rest = inside) : Covers (plain opening body quote) rest cs := by
  refine ⟨by simp [spell_plain, ← hopen, ← hclose], ?_, ?_⟩
  · unfold plain
    split <;> simp
  · unfold plain
    split
    · next hmem =>
      have : body ≠ [] := List.ne_nil_of_mem hmem
      simp [hne, this]
    · simp

theorem singleQuoted_conserves : Rule.Conserves singleQuoted := by
  intro previous cs scan h
  unfold singleQuoted at h
  split at h
  · simp at h
  · next opening inside ho =>
    split at h
    · simp at h
    · next body rest hc =>
      simp only [Option.some.injEq, Except.ok.injEq] at h
      subst h
      exact plain_covers (opening?_append ho).1 (opening?_append ho).2 (closingQuote?_append hc)

theorem doubleQuoted_conserves : Rule.Conserves doubleQuoted := by
  intro previous cs scan h
  unfold doubleQuoted at h
  split at h
  · simp at h
  · next opening inside ho =>
    have ⟨happ, hne⟩ := opening?_append ho
    split at h
    · simp at h
    · next body rest hc =>
      split at h
      · simp only [Option.some.injEq, Except.ok.injEq] at h
        subst h
        exact ⟨by simpa using happ, by simp, by simpa using hne⟩
      · simp only [Option.some.injEq, Except.ok.injEq] at h
        subst h
        exact plain_covers happ hne (closingQuote?_append hc)

theorem backQuoted_conserves : Rule.Conserves backQuoted := by
  intro previous cs scan h
  unfold backQuoted at h
  split at h
  · simp at h
  · next inside e =>
    simp only [Option.some.injEq, Except.ok.injEq] at h
    subst h
    exact ⟨by simpa using strip?_eq_some e, by simp, by simp⟩

end Listing.Lexer.Quoted
