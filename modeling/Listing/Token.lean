import Listing.Kind

/-!
# Tokens

A `Token` is a stretch of source text with its kind and the line it starts on. A `Lexeme` is the
same before it has a place; `Token.place` numbers a run of lexemes by counting their newlines.
-/

namespace Listing

/-- A stretch of source text, with the line on which it starts. -/
structure Token where
  kind : Kind
  text : String
  line : Nat
  deriving DecidableEq, Repr

/-- A kind and a text, not yet placed on a line. -/
structure Lexeme where
  kind : Kind
  text : List Char
  deriving DecidableEq, Repr

/-- The number of newlines in a text. -/
def newlines (cs : List Char) : Nat :=
  cs.count '\n'

namespace Lexeme

/-- The lexeme is the punctuation `c`. -/
def isPunct (lexeme : Lexeme) (c : Char) : Bool :=
  lexeme.kind == .punct && lexeme.text == [c]

/-- The text a run of lexemes spells. -/
def spell (lexemes : List Lexeme) : List Char :=
  lexemes.flatMap text

@[simp]
theorem spell_nil : spell [] = [] := rfl

@[simp]
theorem spell_cons (lexeme : Lexeme) (lexemes : List Lexeme) :
    spell (lexeme :: lexemes) = lexeme.text ++ spell lexemes := by
  simp [spell]

@[simp]
theorem spell_append (front back : List Lexeme) :
    spell (front ++ back) = spell front ++ spell back := by
  simp [spell]

/-- A text as a lexeme, or nothing where there is no text. -/
def ofText (kind : Kind) (text : List Char) : List Lexeme :=
  if text.isEmpty then [] else [⟨kind, text⟩]

@[simp]
theorem spell_ofText (kind : Kind) (text : List Char) : spell (ofText kind text) = text := by
  cases text <;> simp [ofText]

theorem text_ne_nil_of_mem_ofText {kind : Kind} {text : List Char} :
    ∀ lexeme ∈ ofText kind text, lexeme.text ≠ [] := by
  cases text <;> simp [ofText]

end Lexeme

namespace Token

/-- The token is the punctuation `c`, and nothing more. -/
def isPunct (token : Token) (c : Char) : Bool :=
  token.kind == .punct && token.text.toList == [c]

/-- What is left of a token cut at a newline: the same kind, one line further down. -/
def remainder (token : Token) (text : String) : Token :=
  { token with text, line := token.line + 1 }

/-- The lexemes as tokens, the first of them on `line`. -/
def place (line : Nat) : List Lexeme → List Token
  | [] => []
  | lexeme :: lexemes =>
    { kind := lexeme.kind, text := String.ofList lexeme.text, line }
      :: place (line + newlines lexeme.text) lexemes

end Token

end Listing
