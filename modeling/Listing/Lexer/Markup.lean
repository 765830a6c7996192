import Listing.Lexer.Scan

/-!
# Text around the program

Outside the tags a source is text. An opening tag is `<?=`, or `<?php` in any capitals with a space
or the end of the source after it; the space belongs to the tag.
-/

namespace Listing.Lexer.Markup

open Text

/-- An opening tag is next: its lexeme and the rest. -/
def openTag? (cs : List Char) : Option (Lexeme × List Char) :=
  match strip? ['<', '?', '='] cs with
  | some rest => some (⟨.tag .openEcho, ['<', '?', '=']⟩, rest)
  | none =>
    match stripAnyCase? ['<', '?', 'p', 'h', 'p'] cs with
    | none => none
    | some (text, []) => some (⟨.tag .open_, text⟩, [])
    | some (text, c :: rest) =>
      if isSpace c then some (⟨.tag .open_, text ++ [c]⟩, rest) else none

/-- An opening tag is next. -/
def opens (cs : List Char) : Bool :=
  (openTag? cs).isSome

/-! ## Nothing is lost -/

theorem openTag?_covers {cs rest : List Char} {tag : Lexeme} (h : openTag? cs = some (tag, rest)) :
    Covers [tag] rest cs := by
  unfold openTag? at h
  split at h
  · next after e =>
    simp only [Option.some.injEq, Prod.mk.injEq] at h
    obtain ⟨rfl, rfl⟩ := h
    exact Covers.one (by simp) (strip?_eq_some e)
  · split at h
    · simp at h
    · next text e =>
      obtain ⟨happ, hlow⟩ := stripAnyCase?_eq_some e
      simp only [Option.some.injEq, Prod.mk.injEq] at h
      obtain ⟨rfl, rfl⟩ := h
      refine Covers.one ?_ happ
      rintro rfl
      simp [lower] at hlow
    · next text c after e =>
      obtain ⟨happ, -⟩ := stripAnyCase?_eq_some e
      split at h
      · simp only [Option.some.injEq, Prod.mk.injEq] at h
        obtain ⟨rfl, rfl⟩ := h
        exact Covers.one (by simp) (by simpa using happ)
      · simp at h

end Listing.Lexer.Markup
