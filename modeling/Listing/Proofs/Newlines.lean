import Listing.Proofs.Preservation

/-!
# Three newlines and one

Newlines are brought to line feeds in two passes, the pairs first and then what is left of the
carriage returns, and only if the text has a carriage return at all. All of this is one reading from
the left, in which a pair is one newline and so is a carriage return that has no line feed behind it
(`LineEnding.normalize_eq_unify`). So a text that was written with another newline throughout
(`LineEnding.write`) comes back as it was, and nothing after that can tell.
-/

namespace Listing

namespace LineEnding

/-! ## One reading from the left -/

/-- The text with line feeds for newlines, read once from the left. -/
def unify : List Char → List Char
  | [] => []
  | '\r' :: '\n' :: cs => '\n' :: unify cs
  | '\r' :: cs => '\n' :: unify cs
  | c :: cs => c :: unify cs

theorem unify_cons_of_ne {c : Char} (h : c ≠ '\r') (cs : List Char) :
    unify (c :: cs) = c :: unify cs := by
  rw [unify]
  · simp [h]
  · exact h

theorem unify_return_of_ne {cs : List Char} (h : cs.head? ≠ some '\n') :
    unify ('\r' :: cs) = '\n' :: unify cs := by
  rw [unify]
  rintro rest rfl
  exact h rfl

theorem feedReturns_joinPairs (cs : List Char) : feedReturns (joinPairs cs) = unify cs := by
  fun_induction unify cs with
  | case1 => rfl
  | case2 cs ih => simpa [joinPairs, feedReturns] using ih
  | case3 cs hpair ih =>
    have hlone : cs.head? ≠ some '\n' := by
      intro hhead
      obtain ⟨rest, rfl⟩ := List.head?_eq_some_iff.1 hhead
      exact hpair rest rfl
    simpa [joinPairs, hlone, feedReturns] using ih
  | case4 c cs _ hreturn ih =>
    have hne : c ≠ '\r' := hreturn
    simpa [joinPairs, hne, feedReturns] using ih

theorem return_notMem_unify (cs : List Char) : '\r' ∉ unify cs := by
  rw [← feedReturns_joinPairs, feedReturns, List.mem_map]
  rintro ⟨c, -, hc⟩
  split at hc
  · cases hc
  · next hne => exact hne hc

theorem unify_of_notMem {cs : List Char} (h : '\r' ∉ cs) : unify cs = cs := by
  induction cs with
  | nil => rfl
  | cons c cs ih =>
    rw [List.mem_cons, not_or] at h
    rw [unify_cons_of_ne (Ne.symm h.1), ih h.2]

/-! ## Detection -/

theorem return_mem_of_hasCrlf {cs : List Char} (h : hasCrlf cs = true) : '\r' ∈ cs := by
  induction cs with
  | nil => cases h
  | cons c cs ih =>
    simp only [hasCrlf, Bool.or_eq_true, Bool.and_eq_true, beq_iff_eq] at h
    rcases h with ⟨rfl, -⟩ | h
    · exact List.mem_cons_self
    · exact List.mem_cons_of_mem _ (ih h)

/-- Only a text without carriage returns is taken as it is. -/
theorem detect_eq_lf_iff {cs : List Char} : detect cs = .lf ↔ '\r' ∉ cs := by
  unfold detect
  split
  · next hpair => simpa using return_mem_of_hasCrlf hpair
  · split
    · next hreturn => simpa using hreturn
    · next hreturn => simpa using hreturn

/-- Two passes and a look ahead are one reading. -/
theorem normalize_eq_unify (cs : List Char) : normalize cs = unify cs := by
  unfold normalize
  split
  · next hlf => exact (unify_of_notMem (detect_eq_lf_iff.1 hlf)).symm
  · exact feedReturns_joinPairs cs
  · exact feedReturns_joinPairs cs

/-! ## The same text, written with another newline -/

/-- The newline of a convention. -/
def newline : LineEnding → List Char
  | .lf => ['\n']
  | .crlf => ['\r', '\n']
  | .cr => ['\r']

/-- A text of line feeds, written with the newlines of a convention. -/
def spell (ending : LineEnding) (cs : List Char) : List Char :=
  cs.flatMap fun c => if c = '\n' then ending.newline else [c]

theorem spell_cons_newline (ending : LineEnding) (cs : List Char) :
    ending.spell ('\n' :: cs) = ending.newline ++ ending.spell cs := rfl

theorem spell_cons_of_ne (ending : LineEnding) {c : Char} (h : c ≠ '\n') (cs : List Char) :
    ending.spell (c :: cs) = c :: ending.spell cs := by
  simp [spell, h]

/-- No line feed is left that could make a pair. -/
theorem head?_spell_cr (cs : List Char) : (spell .cr cs).head? ≠ some '\n' := by
  cases cs with
  | nil => simp [spell]
  | cons c cs =>
    by_cases hc : c = '\n'
    · subst hc
      simp [spell_cons_newline, newline]
    · simp [spell_cons_of_ne _ hc, hc]

theorem unify_spell (ending : LineEnding) {cs : List Char} (h : '\r' ∉ cs) :
    unify (ending.spell cs) = cs := by
  induction cs with
  | nil => rfl
  | cons c cs ih =>
    rw [List.mem_cons, not_or] at h
    by_cases hc : c = '\n'
    · subst hc
      rw [spell_cons_newline]
      cases ending with
      | lf => exact (unify_cons_of_ne (by decide) _).trans (congrArg _ (ih h.2))
      | crlf => exact congrArg (List.cons '\n') (ih h.2)
      | cr => exact (unify_return_of_ne (head?_spell_cr cs)).trans (congrArg _ (ih h.2))
    · rw [spell_cons_of_ne _ hc, unify_cons_of_ne (Ne.symm h.1), ih h.2]

end LineEnding

/-! ## Nothing after it can tell -/

theorem toList_normalizeNewlines (text : String) :
    (normalizeNewlines text).toList = LineEnding.unify text.toList := by
  rw [normalizeNewlines, String.toList_ofList, LineEnding.normalize_eq_unify]

theorem return_notMem_normalizeNewlines (text : String) :
    '\r' ∉ (normalizeNewlines text).toList := by
  rw [toList_normalizeNewlines]
  exact LineEnding.return_notMem_unify _

/-- The text with the newlines of a convention for its line feeds. -/
def LineEnding.write (ending : LineEnding) (text : String) : String :=
  String.ofList (ending.spell text.toList)

theorem normalizeNewlines_write (ending : LineEnding) {text : String} (h : '\r' ∉ text.toList) :
    normalizeNewlines (ending.write text) = text := by
  rw [← String.toList_inj, toList_normalizeNewlines, LineEnding.write, String.toList_ofList,
    LineEnding.unify_spell ending h]

/-- **Newline conventions do not show.** Bringing a text to line feeds is one reading of it, leaves
no carriage return, changes nothing the second time, and takes exactly the texts without carriage
returns as they are; and a text of line feeds is rendered the same, in its excerpts and its errors,
with whatever newline it is written. -/
theorem newline_conventions_invisible (text : String) :
    (normalizeNewlines text).toList = LineEnding.unify text.toList
      ∧ '\r' ∉ (normalizeNewlines text).toList
      ∧ normalizeNewlines (normalizeNewlines text) = normalizeNewlines text
      ∧ (LineEnding.detect text.toList = .lf ↔ '\r' ∉ text.toList)
      ∧ (normalizeNewlines text = text ↔ '\r' ∉ text.toList)
      ∧ ('\r' ∉ text.toList → ∀ (ending : LineEnding) (window : Window),
          render (ending.write text) window = render text window) := by
  have hfree := return_notMem_normalizeNewlines text
  refine ⟨toList_normalizeNewlines text, hfree, normalizeNewlines_of_notMem hfree,
    LineEnding.detect_eq_lf_iff, ⟨fun heq => heq ▸ hfree, normalizeNewlines_of_notMem⟩, ?_⟩
  intro hlf ending window
  rw [render, render, tokensOf, tokensOf, normalizeNewlines_write ending hlf,
    normalizeNewlines_of_notMem hlf]

/-- A string left open on line three, whatever the two newlines before it are. -/
theorem newline_conventions_invisible_open_string :
    LineEnding.write .crlf "<?php\n\n'" = "<?php\r\n\r\n'"
      ∧ LineEnding.write .cr "<?php\n\n'" = "<?php\r\r'"
      ∧ ∀ (ending : LineEnding) (window : Window),
        render (ending.write "<?php\n\n'") window = .error ⟨.string, 3⟩ := by
  have hfails : ∀ window, render "<?php\n\n'" window = .error ⟨.string, 3⟩ := by
    intro window
    have htokens : tokenize "<?php\n\n'" = .error ⟨.string, 3⟩ :=
      Lexer.tokenize_of_error (by decide +kernel)
    rw [render, tokensOf, normalizeNewlines_of_notMem (by decide), htokens]
    rfl
  obtain ⟨-, -, -, -, -, hsame⟩ := newline_conventions_invisible "<?php\n\n'"
  refine ⟨by decide, by decide, fun ending window => ?_⟩
  rw [hsame (by decide) ending window]
  exact hfails window

end Listing
