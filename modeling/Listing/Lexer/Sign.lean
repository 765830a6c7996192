import Listing.Lexer.Scan

/-!
# Variables, casts, operators and punctuation

The tokens that are neither word, number, string nor comment. Operators are tried longest first;
what no operator matches is punctuation, one character at a time.
-/

namespace Listing.Lexer.Sign

open Text

/-- The mark that opens an attribute. -/
def attribute_ : Rule := fun _ cs =>
  match strip? ['#', '['] cs with
  | some rest => some (.ok (.one (.grammar .attribute) ['#', '['] rest))
  | none => none

/-- A dollar sign and a name. -/
def variable_ : Rule := fun _ cs =>
  match cs with
  | '$' :: name =>
    if headIs isNameStart name then
      some (.ok (.one .variable_ ('$' :: name.takeWhile isNameChar) (name.dropWhile isNameChar)))
    else none
  | _ => none

/-- The conversion that a type's name stands for, in small letters. -/
def castNamed? (name : String) : Option Cast :=
  [("int", Cast.int), ("integer", .int), ("bool", .bool), ("boolean", .bool), ("float", .double),
    ("double", .double), ("real", .double), ("string", .string), ("binary", .string),
    ("array", .array), ("object", .object), ("unset", .unset)].lookup name

/-- A type's name in parentheses, with blanks around it. -/
def cast : Rule := fun _ cs =>
  match cs with
  | '(' :: inside =>
    let word := inside.dropWhile isBlank
    let after := word.dropWhile Char.isAlpha
    match castNamed? (String.ofList (lower (word.takeWhile Char.isAlpha))),
        strip? [')'] (after.dropWhile isBlank) with
    | some kind, some rest =>
      some (.ok (.one (.cast kind)
        ('(' :: inside.takeWhile isBlank ++ word.takeWhile Char.isAlpha
          ++ after.takeWhile isBlank ++ [')']) rest))
    | _, _ => none
  | _ => none

/-- The mark between the parts of a qualified name. -/
def separator : Rule := fun _ cs =>
  match cs with
  | '\\' :: rest => some (.ok (.one .separator ['\\'] rest))
  | _ => none

/-- Operators of more than one character, the longer ones first. -/
def operators : List (List Char × Kind) :=
  [(['=', '=', '='], .op .isIdentical), (['!', '=', '='], .op .isNotIdentical),
   (['<', '=', '>'], .op .spaceship), (['*', '*', '='], .op .powEqual),
   (['.', '.', '.'], .op .ellipsis), (['<', '<', '='], .op .shiftLeftEqual),
   (['>', '>', '='], .op .shiftRightEqual), (['?', '?', '='], .op .coalesceEqual),
   (['?', '-', '>'], .grammar .nullsafeArrow),
   (['=', '='], .op .isEqual), (['!', '='], .op .isNotEqual), (['<', '>'], .op .isNotEqual),
   (['<', '='], .op .isSmallerOrEqual), (['>', '='], .op .isGreaterOrEqual),
   (['&', '&'], .op .booleanAnd), (['|', '|'], .op .booleanOr), (['+', '+'], .op .inc),
   (['-', '-'], .op .dec), (['+', '='], .op .plusEqual), (['-', '='], .op .minusEqual),
   (['*', '='], .op .mulEqual), (['/', '='], .op .divEqual), (['.', '='], .op .concatEqual),
   (['%', '='], .op .modEqual), (['&', '='], .op .andEqual), (['|', '='], .op .orEqual),
   (['^', '='], .op .xorEqual), (['<', '<'], .op .shiftLeft), (['>', '>'], .op .shiftRight),
   (['?', '?'], .op .coalesce), (['-', '>'], .grammar .arrow),
   (['=', '>'], .grammar .doubleArrow), ([':', ':'], .doubleColon), (['*', '*'], .op .pow)]

/-- The first operator in the table that the text begins with. -/
def operator? (cs : List Char) : Option (Kind × List Char × List Char) :=
  operators.findSome? fun entry => (strip? entry.1 cs).map fun rest => (entry.2, entry.1, rest)

def operator : Rule := fun _ cs =>
  match operator? cs with
  | some (kind, text, rest) => some (.ok (.one kind text rest))
  | none => none

/-- Whatever is left: punctuation, or a character that has no place in a program. -/
def character : Rule := fun _ cs =>
  match cs with
  | [] => none
  | c :: rest => some (.ok (.one (if isPunctuation c then .punct else .badCharacter) [c] rest))

/-! ## Nothing is lost -/

theorem attribute_conserves : Rule.Conserves attribute_ := by
  intro previous cs scan h
  unfold attribute_ at h
  split at h
  · next rest e =>
    simp only [Option.some.injEq, Except.ok.injEq] at h
    subst h
    exact Covers.one (by simp) (strip?_eq_some e)
  · simp at h

theorem variable_conserves : Rule.Conserves variable_ := by
  intro previous cs scan h
  unfold variable_ at h
  split at h
  · split at h
    · simp only [Option.some.injEq, Except.ok.injEq] at h
      subst h
      exact Covers.one (by simp) (by simp)
    · simp at h
  · simp at h

theorem cast_conserves : Rule.Conserves cast := by
  intro previous cs scan h
  unfold cast at h
  split at h
  · next inside =>
    dsimp only at h
    split at h
    · next kind rest hk e =>
      simp only [Option.some.injEq, Except.ok.injEq] at h
      subst h
      refine Covers.one (by simp) ?_
      have hclose := strip?_eq_some e
      simp only [List.cons_append, List.nil_append] at hclose
      simp [hclose]
    · simp at h
  · simp at h

theorem separator_conserves : Rule.Conserves separator := by
  intro previous cs scan h
  unfold separator at h
  split at h
  · simp only [Option.some.injEq, Except.ok.injEq] at h
    subst h
    exact Covers.one (by simp) (by simp)
  · simp at h

theorem operators_ne_nil : ∀ entry ∈ operators, entry.1 ≠ [] := by decide

theorem operator?_append {cs : List Char} {found : Kind × List Char × List Char}
    (h : operator? cs = some found) : found.2.1 ++ found.2.2 = cs ∧ found.2.1 ≠ [] := by
  obtain ⟨entry, hmem, he⟩ := List.exists_of_findSome?_eq_some h
  obtain ⟨rest, hrest, rfl⟩ := Option.map_eq_some_iff.1 he
  exact ⟨strip?_eq_some hrest, operators_ne_nil entry hmem⟩

theorem operator_conserves : Rule.Conserves operator := by
  intro previous cs scan h
  unfold operator at h
  split at h
  · next kind text rest e =>
    simp only [Option.some.injEq, Except.ok.injEq] at h
    subst h
    exact Covers.one (operator?_append e).2 (operator?_append e).1
  · simp at h

theorem character_conserves : Rule.Conserves character := by
  intro previous cs scan h
  unfold character at h
  split at h
  · simp at h
  · simp only [Option.some.injEq, Except.ok.injEq] at h
    subst h
    exact Covers.one (by simp) (by simp)

end Listing.Lexer.Sign
