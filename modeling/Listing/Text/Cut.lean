import Listing.Text.CharClass

/-!
# Cutting a text in two

The reader works from the left: it takes a text off the front and goes on with the rest. The two
cuts used everywhere are *a known text* (`strip?`) and *up to the first place where something
begins* (`before`/`onward`). Both lose nothing: `strip?_eq_some`, `before_append_onward`.
-/

namespace Listing.Text

/-- What is left of a text after a known beginning. -/
def strip? : List Char → List Char → Option (List Char)
  | [], cs => some cs
  | _ :: _, [] => none
  | p :: ps, c :: cs => if p = c then strip? ps cs else none

theorem strip?_eq_some {ps cs rest : List Char} (h : strip? ps cs = some rest) :
    ps ++ rest = cs := by
  induction ps generalizing cs with
  | nil => simpa [strip?] using h.symm
  | cons p ps ih =>
    cases cs with
    | nil => simp [strip?] at h
    | cons c cs =>
      simp only [strip?] at h
      split at h
      · next e => simp [e, ih h]
      · simp at h

@[simp]
theorem strip?_append (ps rest : List Char) : strip? ps (ps ++ rest) = some rest := by
  induction ps with
  | nil => rfl
  | cons p ps ih => simp [strip?, ih]

/-- A text whose capitals do not matter, and what is left after it; `ps` is in small letters. -/
def stripAnyCase? (ps cs : List Char) : Option (List Char × List Char) :=
  if lower (cs.take ps.length) = ps then some (cs.take ps.length, cs.drop ps.length) else none

theorem stripAnyCase?_eq_some {ps cs text rest : List Char}
    (h : stripAnyCase? ps cs = some (text, rest)) : text ++ rest = cs ∧ lower text = ps := by
  unfold stripAnyCase? at h
  split at h
  · next e =>
    simp only [Option.some.injEq, Prod.mk.injEq] at h
    obtain ⟨rfl, rfl⟩ := h
    exact ⟨List.take_append_drop .., e⟩
  · simp at h

/-- The part of a text before the first place where `stop` holds of what follows. -/
def before (stop : List Char → Bool) : List Char → List Char
  | [] => []
  | c :: cs => if stop (c :: cs) then [] else c :: before stop cs

/-- The part of a text from the first place where `stop` holds of what follows. -/
def onward (stop : List Char → Bool) : List Char → List Char
  | [] => []
  | c :: cs => if stop (c :: cs) then c :: cs else onward stop cs

@[simp]
theorem before_append_onward (stop : List Char → Bool) (cs : List Char) :
    before stop cs ++ onward stop cs = cs := by
  induction cs with
  | nil => rfl
  | cons c cs ih =>
    by_cases h : stop (c :: cs) = true <;> simp [before, onward, h, ih]

end Listing.Text
