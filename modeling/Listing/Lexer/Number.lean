import Listing.Lexer.Scan

/-!
# Numbers

A number is an integer in base sixteen, two or eight after `0x`, `0b` or `0o`, else a run of digits
with an optional fraction and exponent. Fraction and exponent make it a float; so does a value that
64 bits cannot hold with a sign (`integerKind`). Underscores group digits and count for nothing.
-/

namespace Listing.Lexer.Number

open Text

/-- The base that the letter after a leading zero announces. -/
def radix? (c : Char) : Option Nat :=
  match c.toLower with
  | 'x' => some 16
  | 'b' => some 2
  | 'o' => some 8
  | _ => none

/-- The value of a digit, where the base has it. -/
def digit? (radix : Nat) (c : Char) : Option Nat :=
  let value :=
    if c.isDigit then c.toNat - '0'.toNat
    else if c.isAlpha then c.toLower.toNat - 'a'.toNat + 10
    else radix
  if value < radix then some value else none

/-- The first value that a signed word of 64 bits cannot hold. -/
def limit : Nat := 0x8000000000000000

/-- The kind of an integer, its digits read from the left on top of `value`. A digit that the base
lacks ends the reading. -/
def integerKind (radix value : Nat) : List Char → Kind
  | [] => .int
  | c :: cs =>
    if c = '_' then integerKind radix value cs
    else
      match digit? radix c with
      | none => .int
      | some d =>
        if limit ≤ value * radix + d then .float else integerKind radix (value * radix + d) cs

/-- The kind of a run of digits: a leading zero before others makes it octal. -/
def wholeKind : List Char → Kind
  | '0' :: c :: cs => integerKind 8 0 (c :: cs)
  | cs => integerKind 10 0 cs

/-- A digit of the base, or a group mark. -/
def isDigitOf (radix : Nat) (c : Char) : Bool :=
  c == '_' || (digit? radix c).isSome

/-- An integer with its base announced: kind, text and rest. -/
def based? : List Char → Option (Kind × List Char × List Char)
  | '0' :: letter :: cs =>
    match radix? letter with
    | none => none
    | some radix =>
      let digits := cs.takeWhile (isDigitOf radix)
      if digits.isEmpty then none
      else
        some (integerKind radix 0 digits, '0' :: letter :: digits, cs.dropWhile (isDigitOf radix))
  | _ => none

/-- A point and the digits after it, if any. -/
def fraction : List Char → List Char × List Char
  | '.' :: cs => ('.' :: cs.takeWhile isDigitOrGroup, cs.dropWhile isDigitOrGroup)
  | cs => ([], cs)

/-- The sign of an exponent. -/
def sign : List Char → List Char × List Char
  | '+' :: cs => (['+'], cs)
  | '-' :: cs => (['-'], cs)
  | cs => ([], cs)

/-- An exponent; it needs a digit. -/
def exponent : List Char → List Char × List Char
  | [] => ([], [])
  | c :: cs =>
    if c.toLower = 'e' ∧ headIs Char.isDigit (sign cs).2 then
      (c :: (sign cs).1 ++ (sign cs).2.takeWhile isDigitOrGroup,
        (sign cs).2.dropWhile isDigitOrGroup)
    else ([], c :: cs)

/-- A number in base ten, or octal without its base announced: kind, text and rest. -/
def decimal (cs : List Char) : Kind × List Char × List Char :=
  let whole := cs.takeWhile isDigitOrGroup
  let point := fraction (cs.dropWhile isDigitOrGroup)
  let power := exponent point.2
  let kind := if point.1.isEmpty && power.1.isEmpty then wholeKind whole else .float
  (kind, whole ++ point.1 ++ power.1, power.2)

/-- A number begins with a digit, or with a point before a digit. -/
def begins : List Char → Bool
  | [] => false
  | c :: cs => c.isDigit || (c == '.' && headIs Char.isDigit cs)

/-- The number at the front of a text: kind, text and rest. -/
def split (cs : List Char) : Kind × List Char × List Char :=
  (based? cs).getD (decimal cs)

/-- Numbers. -/
def rule : Rule := fun _ cs =>
  if begins cs then
    let number := split cs
    some (.ok (.one number.1 number.2.1 number.2.2))
  else none

/-! ## Nothing is lost -/

theorem fraction_append (cs : List Char) : (fraction cs).1 ++ (fraction cs).2 = cs := by
  unfold fraction
  split <;> simp

theorem sign_append (cs : List Char) : (sign cs).1 ++ (sign cs).2 = cs := by
  unfold sign
  split <;> simp

theorem exponent_append (cs : List Char) : (exponent cs).1 ++ (exponent cs).2 = cs := by
  cases cs with
  | nil => rfl
  | cons c cs =>
    simp only [exponent]
    split
    · simp [sign_append]
    · simp

theorem decimal_append (cs : List Char) : (decimal cs).2.1 ++ (decimal cs).2.2 = cs := by
  simp [decimal, exponent_append, fraction_append]

theorem based?_append {cs : List Char} {number : Kind × List Char × List Char}
    (h : based? cs = some number) : number.2.1 ++ number.2.2 = cs ∧ number.2.1 ≠ [] := by
  unfold based? at h
  split at h
  · split at h
    · simp at h
    · dsimp only at h
      split at h
      · simp at h
      · simp only [Option.some.injEq] at h
        subst h
        simp
  · simp at h

theorem decimal_ne_nil {cs : List Char} (h : begins cs = true) : (decimal cs).2.1 ≠ [] := by
  cases cs with
  | nil => simp [begins] at h
  | cons c cs =>
    by_cases hd : c.isDigit = true
    · simp [decimal, isDigitOrGroup, hd]
    · have hc : c = '.' := by simp [begins, hd] at h; exact h.1
      subst hc
      simp [decimal, fraction, isDigitOrGroup]

theorem split_append (cs : List Char) : (split cs).2.1 ++ (split cs).2.2 = cs := by
  unfold split
  cases h : based? cs with
  | none => simpa using decimal_append cs
  | some number => simpa using (based?_append h).1

theorem split_ne_nil {cs : List Char} (hb : begins cs = true) : (split cs).2.1 ≠ [] := by
  unfold split
  cases h : based? cs with
  | none => simpa using decimal_ne_nil hb
  | some number => simpa using (based?_append h).2

theorem rule_conserves : Rule.Conserves rule := by
  intro previous cs scan h
  unfold rule at h
  split at h
  · next hb =>
    simp only [Option.some.injEq, Except.ok.injEq] at h
    subst h
    exact Covers.one (split_ne_nil hb) (split_append cs)
  · simp at h

end Listing.Lexer.Number
