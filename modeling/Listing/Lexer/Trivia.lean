import Listing.Lexer.Scan

/-!
# Spaces, comments and the closing tag

A comment of one line ends before its newline, or before a closing tag on the same line. A comment
in `/*` and `*/` is a doc comment when two stars and a space open it; left open, it is an error.
-/

namespace Listing.Lexer.Trivia

open Text

/-- A run of spaces and newlines. -/
def spaces : Rule := fun _ cs =>
  if headIs isSpace cs then
    some (.ok (.one .whitespace (cs.takeWhile isSpace) (cs.dropWhile isSpace)))
  else none

/-- A closing tag takes one newline with it. -/
def closeTag : Rule := fun _ cs =>
  match strip? ['?', '>', '\n'] cs with
  | some rest => some (.ok ⟨[⟨.tag .close, ['?', '>', '\n']⟩], rest, .leave⟩)
  | none =>
    match strip? ['?', '>'] cs with
    | some rest => some (.ok ⟨[⟨.tag .close, ['?', '>']⟩], rest, .leave⟩)
    | none => none

/-- Where a comment of one line stops. -/
def endsLine (cs : List Char) : Bool :=
  headIs (· == '\n') cs || (strip? ['?', '>'] cs).isSome

/-- The mark that opens a comment of one line. -/
def opensLine : List Char → Bool
  | '#' :: _ => true
  | '/' :: '/' :: _ => true
  | _ => false

/-- A comment to the end of the line. -/
def lineComment : Rule := fun _ cs =>
  if opensLine cs then some (.ok (.one .comment (before endsLine cs) (onward endsLine cs)))
  else none

/-- The mark that closes a comment is next. -/
def closesBlock (cs : List Char) : Bool :=
  (strip? ['*', '/'] cs).isSome

/-- The text after `/*` makes the comment a doc comment. -/
def isDoc : List Char → Bool
  | '*' :: c :: _ => isSpace c
  | _ => false

/-- A comment between `/*` and `*/`. -/
def blockComment : Rule := fun _ cs =>
  match strip? ['/', '*'] cs with
  | none => none
  | some inside =>
    match strip? ['*', '/'] (onward closesBlock inside) with
    | none => some (.error .comment)
    | some rest =>
      some (.ok (.one (if isDoc inside then .docComment else .comment)
        (['/', '*'] ++ before closesBlock inside ++ ['*', '/']) rest))

/-! ## Nothing is lost -/

theorem spaces_conserves : Rule.Conserves spaces := by
  intro previous cs scan h
  unfold spaces at h
  split at h
  · next hs =>
    simp only [Option.some.injEq, Except.ok.injEq] at h
    subst h
    refine Covers.one ?_ List.takeWhile_append_dropWhile
    cases cs with
    | nil => simp at hs
    | cons c cs => simp at hs; simp [hs]
  · simp at h

theorem closeTag_conserves : Rule.Conserves closeTag := by
  intro previous cs scan h
  unfold closeTag at h
  split at h
  · next rest e =>
    simp only [Option.some.injEq, Except.ok.injEq] at h
    subst h
    exact ⟨by simpa using strip?_eq_some e, by simp, by simp⟩
  · split at h
    · next rest e =>
      simp only [Option.some.injEq, Except.ok.injEq] at h
      subst h
      exact ⟨by simpa using strip?_eq_some e, by simp, by simp⟩
    · simp at h

theorem lineComment_conserves : Rule.Conserves lineComment := by
  intro previous cs scan h
  unfold lineComment at h
  split at h
  · next hs =>
    simp only [Option.some.injEq, Except.ok.injEq] at h
    subst h
    refine Covers.one ?_ (before_append_onward _ _)
    unfold opensLine at hs
    split at hs <;> simp_all [before, endsLine, strip?]
  · simp at h

theorem blockComment_conserves : Rule.Conserves blockComment := by
  intro previous cs scan h
  unfold blockComment at h
  split at h
  · simp at h
  · next inside e =>
    split at h
    · simp at h
    · next rest e' =>
      simp only [Option.some.injEq, Except.ok.injEq] at h
      subst h
      refine Covers.one (by simp) ?_
      rw [Scan.one_rest]
      rw [← strip?_eq_some e, List.append_assoc, strip?_eq_some e', List.append_assoc,
        before_append_onward]

end Listing.Lexer.Trivia
