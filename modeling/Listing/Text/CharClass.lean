/-!
# Character classes

The classes the reader distinguishes. Only ASCII characters are ever told apart: every character
from `U+0080` on counts as a letter of a name.
-/

namespace Listing.Text

/-- A blank inside a line. -/
def isBlank (c : Char) : Bool :=
  c == ' ' || c == '\t'

/-- A character of a whitespace run. -/
def isSpace (c : Char) : Bool :=
  c == ' ' || c == '\t' || c == '\n' || c == '\r'

/-- A character that can begin a name. -/
def isNameStart (c : Char) : Bool :=
  c.isAlpha || c == '_' || decide (0x80 ≤ c.toNat)

/-- A character that can continue a name. -/
def isNameChar (c : Char) : Bool :=
  isNameStart c || c.isDigit

/-- A digit, or the underscore that groups digits. -/
def isDigitOrGroup (c : Char) : Bool :=
  c.isDigit || c == '_'

/-- An ASCII character that prints and is neither letter, digit nor space. -/
def isPunctuation (c : Char) : Bool :=
  decide (0x21 ≤ c.toNat) && decide (c.toNat ≤ 0x7e) && !c.isAlphanum

/-- A text with its ASCII capitals made small. -/
def lower (cs : List Char) : List Char :=
  cs.map Char.toLower

/-- The first character of a text belongs to a class. -/
def headIs (p : Char → Bool) : List Char → Bool
  | [] => false
  | c :: _ => p c

@[simp]
theorem headIs_nil (p : Char → Bool) : headIs p [] = false := rfl

@[simp]
theorem headIs_cons (p : Char → Bool) (c : Char) (cs : List Char) : headIs p (c :: cs) = p c := rfl

theorem isNameChar_of_isNameStart {c : Char} (h : isNameStart c = true) : isNameChar c = true := by
  simp [isNameChar, h]

end Listing.Text
