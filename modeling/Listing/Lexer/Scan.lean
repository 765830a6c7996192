import Listing.Token
import Listing.LexError
import Listing.Text.Cut

/-!
# Scans and rules

Program text is read by an ordered list of rules. A `Rule` looks at the text ahead and either
passes, fails with the construct left open, or answers with a `Scan`: the lexemes it took off the
front, what is left, and where reading goes on. `Covers` is what every rule owes: the lexemes spell
exactly the text taken, none of them is empty, and there is at least one. It is also what makes
reading end.
-/

namespace Listing.Lexer

/-- The label of a heredoc: a name, and so never empty. -/
structure Label where
  first : Char
  more : List Char
  deriving DecidableEq, Repr

/-- The characters of a label. -/
def Label.chars (label : Label) : List Char :=
  label.first :: label.more

/-- What ends the body of a string in which variables are replaced. -/
inductive Closer where
  | doubleQuote
  | backtick
  /-- A heredoc's label at the start of a line. -/
  | label (label : Label)
  deriving DecidableEq, Repr

/-- Where reading goes on after a token of code. -/
inductive Turn where
  | stay
  /-- Out of the program, past a closing tag. -/
  | leave
  /-- Into the body of a string. -/
  | enter (closer : Closer)
  deriving DecidableEq, Repr

/-- What a rule took off the front of a text. -/
structure Scan where
  lexemes : List Lexeme
  rest : List Char
  turn : Turn := .stay
  deriving DecidableEq, Repr

/-- A rule for the text ahead, given the last kind before it that was not whitespace or comment. -/
abbrev Rule := Option Kind → List Char → Option (Except Unterminated Scan)

/-- The lexemes and the rest are the text, cut up without loss. -/
structure Covers (lexemes : List Lexeme) (rest cs : List Char) : Prop where
  spelled : Lexeme.spell lexemes ++ rest = cs
  some_lexeme : lexemes ≠ []
  texts : ∀ lexeme ∈ lexemes, lexeme.text ≠ []

theorem Covers.rest_lt {lexemes : List Lexeme} {rest cs : List Char} (h : Covers lexemes rest cs) :
    rest.length < cs.length := by
  obtain ⟨lexeme, others, rfl⟩ := List.exists_cons_of_ne_nil h.some_lexeme
  have : 0 < lexeme.text.length := List.length_pos_iff.2 (h.texts lexeme (by simp))
  rw [← h.spelled]
  simp only [Lexeme.spell_cons, List.length_append]
  omega

theorem Covers.spell_ne_nil {lexemes : List Lexeme} {rest cs : List Char}
    (h : Covers lexemes rest cs) : Lexeme.spell lexemes ≠ [] := by
  intro hnil
  have hlt := h.rest_lt
  rw [← h.spelled, hnil] at hlt
  exact absurd hlt (Nat.lt_irrefl _)

theorem Covers.one {kind : Kind} {text rest cs : List Char} (hne : text ≠ [])
    (h : text ++ rest = cs) : Covers [⟨kind, text⟩] rest cs :=
  ⟨by simpa using h, by simp, by simpa using hne⟩

/-- A literal text in front of what was cut. -/
theorem Covers.append (front : List Lexeme) {lexemes : List Lexeme} {rest cs : List Char}
    (hfront : ∀ lexeme ∈ front, lexeme.text ≠ []) (h : Covers lexemes rest cs) :
    Covers (front ++ lexemes) rest (Lexeme.spell front ++ cs) := by
  refine ⟨by simp [h.spelled], by simp [h.some_lexeme], ?_⟩
  intro lexeme hmem
  rcases List.mem_append.1 hmem with hmem | hmem
  · exact hfront lexeme hmem
  · exact h.texts lexeme hmem

/-- A scan of one lexeme. -/
def Scan.one (kind : Kind) (text rest : List Char) : Scan :=
  { lexemes := [⟨kind, text⟩], rest }

@[simp]
theorem Scan.one_lexemes (kind : Kind) (text rest : List Char) :
    (Scan.one kind text rest).lexemes = [⟨kind, text⟩] := rfl

@[simp]
theorem Scan.one_rest (kind : Kind) (text rest : List Char) :
    (Scan.one kind text rest).rest = rest := rfl

/-- A rule loses nothing of the text it reads. -/
def Rule.Conserves (rule : Rule) : Prop :=
  ∀ previous cs scan, rule previous cs = some (.ok scan) → Covers scan.lexemes scan.rest cs

end Listing.Lexer
