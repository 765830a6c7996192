import Listing.Lexer.Quoted

/-!
# Heredocs and nowdocs

`<<<` with a label opens a string that runs to the label at the start of a line, indented or not
(`closeAt?`). With the label in single quotes nothing in the string is replaced, and the whole of it
is read at once (`untilClose?`); otherwise only the opening line is read here.
-/

namespace Listing.Lexer.Heredoc

open Text

/-- An opening line. -/
structure Header where
  label : Label
  /-- Nothing in the string is replaced. -/
  raw : Bool
  text : List Char
  rest : List Char

/-- A label between quotes, or bare, and the newline after it: label, text and rest. -/
def labelLine? (quotes : List Char) (cs : List Char) : Option (Label × List Char × List Char) :=
  match strip? quotes cs with
  | some (c :: name) =>
    if isNameStart c then
      (strip? (quotes ++ ['\n']) (name.dropWhile isNameChar)).map fun rest =>
        (⟨c, name.takeWhile isNameChar⟩,
          quotes ++ c :: name.takeWhile isNameChar ++ quotes ++ ['\n'], rest)
    else none
  | _ => none

/-- The opening line of a heredoc. -/
def header? (cs : List Char) : Option Header :=
  match strip? ['<', '<', '<'] cs with
  | none => none
  | some after =>
    let line := after.dropWhile isBlank
    let lead := ['<', '<', '<'] ++ after.takeWhile isBlank
    match labelLine? [Quoted.single] line with
    | some (label, text, rest) => some ⟨label, true, lead ++ text, rest⟩
    | none =>
      match labelLine? [Quoted.double] line with
      | some (label, text, rest) => some ⟨label, false, lead ++ text, rest⟩
      | none =>
        match labelLine? [] line with
        | some (label, text, rest) => some ⟨label, false, lead ++ text, rest⟩
        | none => none

/-- The line that begins here closes the label: its text up to the label's end, and the rest. -/
def closeAt? (label : Label) (cs : List Char) : Option (List Char × List Char) :=
  match strip? label.chars (cs.dropWhile isBlank) with
  | none => none
  | some rest =>
    if headIs isNameChar rest then none else some (cs.takeWhile isBlank ++ label.chars, rest)

/-- The text before the first line that closes the label, and that line on. `fresh` says that a line
begins here. -/
def untilClose? (label : Label) : Bool → List Char → Option (List Char × List Char)
  | _, [] => none
  | fresh, c :: cs =>
    if fresh && (closeAt? label (c :: cs)).isSome then some ([], c :: cs)
    else (untilClose? label (c == '\n') cs).map fun found => (c :: found.1, found.2)

/-- A heredoc's opening line, or the whole of a nowdoc. -/
def rule : Rule := fun _ cs =>
  match header? cs with
  | none => none
  | some header =>
    if header.raw then
      match untilClose? header.label true header.rest with
      | none => some (.error (.heredoc (String.ofList header.label.chars)))
      | some (body, line) =>
        match closeAt? header.label line with
        | none => some (.error (.heredoc (String.ofList header.label.chars)))
        | some (text, rest) =>
          some (.ok
            { lexemes := ⟨.grammar .startHeredoc, header.text⟩ :: Lexeme.ofText .literal body
                ++ [⟨.grammar .endHeredoc, text⟩]
              rest })
    else
      some (.ok
        ⟨[⟨.grammar .startHeredoc, header.text⟩], header.rest, .enter (.label header.label)⟩)

/-! ## Nothing is lost -/

theorem labelLine?_append {quotes cs text rest : List Char} {label : Label}
    (h : labelLine? quotes cs = some (label, text, rest)) : text ++ rest = cs := by
  unfold labelLine? at h
  split at h
  · next c name e =>
    split at h
    · obtain ⟨after, ha, he⟩ := Option.map_eq_some_iff.1 h
      simp only [Prod.mk.injEq] at he
      obtain ⟨-, rfl, rfl⟩ := he
      have hq := strip?_eq_some ha
      rw [← strip?_eq_some e]
      simp only [List.append_assoc, List.cons_append] at hq ⊢
      rw [hq, List.takeWhile_append_dropWhile]
    · simp at h
  · simp at h

theorem header?_append {cs : List Char} {header : Header} (h : header? cs = some header) :
    header.text ++ header.rest = cs ∧ header.text ≠ [] := by
  unfold header? at h
  split at h
  · simp at h
  · next after e =>
    have hcut : ∀ {quotes text rest : List Char} {label : Label},
        labelLine? quotes (after.dropWhile isBlank) = some (label, text, rest) →
        (['<', '<', '<'] ++ after.takeWhile isBlank ++ text) ++ rest = cs := by
      intro quotes text rest label hl
      rw [List.append_assoc, labelLine?_append hl, List.append_assoc,
        List.takeWhile_append_dropWhile, strip?_eq_some e]
    dsimp only at h
    split at h
    · next hl =>
      simp only [Option.some.injEq] at h
      subst h
      exact ⟨hcut hl, by simp⟩
    · split at h
      · next hl =>
        simp only [Option.some.injEq] at h
        subst h
        exact ⟨hcut hl, by simp⟩
      · split at h
        · next hl =>
          simp only [Option.some.injEq] at h
          subst h
          exact ⟨hcut hl, by simp⟩
        · simp at h

theorem closeAt?_append {label : Label} {cs text rest : List Char}
    (h : closeAt? label cs = some (text, rest)) : text ++ rest = cs ∧ text ≠ [] := by
  unfold closeAt? at h
  split at h
  · simp at h
  · next after e =>
    split at h
    · simp at h
    · simp only [Option.some.injEq, Prod.mk.injEq] at h
      obtain ⟨rfl, rfl⟩ := h
      refine ⟨?_, by simp [Label.chars]⟩
      rw [List.append_assoc, strip?_eq_some e, List.takeWhile_append_dropWhile]

theorem untilClose?_append {label : Label} {cs body line : List Char} {fresh : Bool}
    (h : untilClose? label fresh cs = some (body, line)) : body ++ line = cs := by
  induction cs generalizing fresh body with
  | nil => simp [untilClose?] at h
  | cons c cs ih =>
    unfold untilClose? at h
    split at h
    · simp only [Option.some.injEq, Prod.mk.injEq] at h
      obtain ⟨rfl, rfl⟩ := h
      rfl
    · obtain ⟨found, hf, he⟩ := Option.map_eq_some_iff.1 h
      simp only [Prod.mk.injEq] at he
      obtain ⟨rfl, rfl⟩ := he
      simp [ih hf]

theorem rule_conserves : Rule.Conserves rule := by
  intro previous cs scan h
  unfold rule at h
  split at h
  · simp at h
  · next header e =>
    obtain ⟨happ, htext⟩ := header?_append e
    split at h
    · split at h
      · simp at h
      · next body line hu =>
        split at h
        · simp at h
        · next text rest hc =>
          obtain ⟨hclose, hne⟩ := closeAt?_append hc
          simp only [Option.some.injEq, Except.ok.injEq] at h
          subst h
          refine ⟨?_, by simp, ?_⟩
          · simp [← happ, ← untilClose?_append hu, ← hclose]
          · intro lexeme hmem
            simp only [List.cons_append, List.mem_cons, List.mem_append, List.not_mem_nil,
              or_false] at hmem
            rcases hmem with rfl | hmem | rfl
            · exact htext
            · exact Lexeme.text_ne_nil_of_mem_ofText lexeme hmem
            · exact hne
    · simp only [Option.some.injEq, Except.ok.injEq] at h
      subst h
      exact ⟨by simpa using happ, by simp, by simpa using htext⟩

end Listing.Lexer.Heredoc
