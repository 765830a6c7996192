import Listing.Lexer
import Listing.Proofs.Lines

/-!
# The tokens of a source partition it

A successful reading is a chain of steps, each of which cuts its lexemes off the front of what the
step before it left (`Lexer.Reads`). Placing the lexemes of the whole chain is the same as placing
those of each step as it comes (`Reads.of_run`), so facts about the tokens of a source are facts
about one list of lexemes, by induction on the chain.

The main result: no token is empty, the texts of the tokens spell the source, and each token stands
on the line that the newlines before it say.
-/

namespace Listing

namespace Token

/-- The text a run of tokens spells. -/
def spell (tokens : List Token) : List Char :=
  tokens.flatMap fun token => token.text.toList

@[simp]
theorem spell_nil : spell [] = [] := rfl

@[simp]
theorem spell_cons (token : Token) (tokens : List Token) :
    spell (token :: tokens) = token.text.toList ++ spell tokens := by
  simp [spell]

@[simp]
theorem spell_append (front back : List Token) :
    spell (front ++ back) = spell front ++ spell back := by
  simp [spell]

theorem spell_eq_nil_iff {tokens : List Token} (h : ∀ token ∈ tokens, token.text ≠ "") :
    spell tokens = [] ↔ tokens = [] := by
  cases tokens with
  | nil => simp
  | cons token tokens =>
    have hne := h token List.mem_cons_self
    simp [String.toList_eq_nil_iff, hne]

theorem toList_join_text (tokens : List Token) :
    (String.join (tokens.map Token.text)).toList = spell tokens := by
  simp [spell, List.flatMap_map]

/-- Each token stands on the line that its predecessors' newlines lead to, the first on `line`. -/
def Placed : Nat → List Token → Prop
  | _, [] => True
  | line, token :: tokens =>
    token.line = line ∧ Placed (line + newlines token.text.toList) tokens

theorem Placed.append_iff {line : Nat} {front back : List Token} :
    Placed line (front ++ back)
      ↔ Placed line front ∧ Placed (line + newlines (spell front)) back := by
  induction front generalizing line with
  | nil => simp [Placed]
  | cons token front ih => simp [Placed, ih, and_assoc, Nat.add_assoc]

theorem Placed.line_eq {line : Nat} {before after : List Token} {token : Token}
    (h : Placed line (before ++ token :: after)) : token.line = line + newlines (spell before) :=
  (Placed.append_iff.1 h).2.1

/-- A list in which each token stands where its predecessors say is placed. -/
theorem Placed.of_line_eq {line : Nat} {tokens : List Token}
    (h : ∀ before token after, tokens = before ++ token :: after →
      token.line = line + newlines (spell before)) : Placed line tokens := by
  induction tokens generalizing line with
  | nil => trivial
  | cons token tokens ih =>
    refine ⟨by simpa using h [] token tokens rfl, ih ?_⟩
    intro before next after htokens
    have := h (token :: before) next after (by rw [htokens, List.cons_append])
    rw [this, spell_cons, newlines_append, Nat.add_assoc]

/-! ## Placing lexemes -/

theorem place_append (line : Nat) (front back : List Lexeme) :
    place line (front ++ back)
      = place line front ++ place (line + newlines (Lexeme.spell front)) back := by
  induction front generalizing line with
  | nil => rfl
  | cons lexeme front ih => simp [place, ih, Nat.add_assoc]

@[simp]
theorem spell_place (line : Nat) (lexemes : List Lexeme) :
    spell (place line lexemes) = Lexeme.spell lexemes := by
  induction lexemes generalizing line with
  | nil => rfl
  | cons lexeme lexemes ih => simp [place, ih]

theorem placed_place (line : Nat) (lexemes : List Lexeme) : Placed line (place line lexemes) := by
  induction lexemes generalizing line with
  | nil => trivial
  | cons lexeme lexemes ih => exact ⟨rfl, by simpa using ih _⟩

theorem exists_lexeme_of_mem_place {line : Nat} {lexemes : List Lexeme} {token : Token}
    (h : token ∈ place line lexemes) :
    ∃ lexeme ∈ lexemes, token.kind = lexeme.kind ∧ token.text.toList = lexeme.text := by
  induction lexemes generalizing line with
  | nil => simp [place] at h
  | cons lexeme lexemes ih =>
    rcases List.mem_cons.1 h with rfl | h
    · exact ⟨lexeme, List.mem_cons_self, rfl, by simp⟩
    · obtain ⟨found, hmem, hf⟩ := ih h
      exact ⟨found, List.mem_cons_of_mem _ hmem, hf⟩

end Token

/-! ## Successful readings -/

namespace Lexer

/-! What one step of a run does, by what the step answers. -/

theorem run_of_nil {state : State} (h : state.rest = []) :
    run state = state.context.finish.map fun _ => [] := by
  rw [run, dif_pos h]
  cases state.context.finish <;> rfl

theorem run_of_error {state : State} (hne : state.rest ≠ []) {error : LexError}
    (h : state.step = .error error) : run state = .error error := by
  rw [run, dif_neg hne]
  split
  · next heq =>
    rw [h] at heq
    cases heq
    rfl
  · next heq =>
    rw [h] at heq
    cases heq

theorem run_of_step {state : State} (hne : state.rest ≠ []) {next : Step}
    (h : state.step = .ok next) :
    run state = (run (state.advance next)).map (Token.place state.line next.lexemes ++ ·) := by
  rw [run, dif_neg hne]
  split
  · next heq =>
    rw [h] at heq
    cases heq
  · next found heq =>
    rw [h] at heq
    cases heq
    cases run (state.advance next) <;> rfl

/-- The lexemes from a state of the reader to the end of the source. -/
inductive Reads : State → List Lexeme → Prop
  | done {state : State} : state.rest = [] → state.context.finish = .ok () → Reads state []
  | step {state : State} {next : Step} {lexemes : List Lexeme} : state.rest ≠ [] →
      state.step = .ok next → Reads (state.advance next) lexemes →
      Reads state (next.lexemes ++ lexemes)

/-- The tokens of a successful run are the lexemes of a reading, placed. -/
theorem Reads.of_run {state : State} {tokens : List Token} (h : run state = .ok tokens) :
    ∃ lexemes, Reads state lexemes ∧ tokens = Token.place state.line lexemes := by
  fun_induction run state generalizing tokens with
  | case1 => simp at h
  | case2 state hrest hfinish =>
    cases h
    exact ⟨[], .done hrest hfinish, rfl⟩
  | case3 => simp at h
  | case4 => simp at h
  | case5 state hne next hstep more hmore ih =>
    cases h
    obtain ⟨lexemes, hreads, rfl⟩ := ih hmore
    exact ⟨next.lexemes ++ lexemes, .step hne hstep hreads, (Token.place_append ..).symm⟩

/-- A reading cuts up what is left of the source without loss. -/
theorem Reads.spell_eq {state : State} {lexemes : List Lexeme} (h : Reads state lexemes) :
    Lexeme.spell lexemes = state.rest := by
  induction h with
  | done hrest _ => exact hrest.symm
  | step hne hstep _ ih =>
    rw [Lexeme.spell_append, ih]
    exact (Context.step_covers hne hstep).spelled

theorem Reads.text_ne_nil {state : State} {lexemes : List Lexeme} (h : Reads state lexemes) :
    ∀ lexeme ∈ lexemes, lexeme.text ≠ [] := by
  induction h with
  | done => simp
  | step hne hstep _ ih =>
    intro lexeme hmem
    rcases List.mem_append.1 hmem with hmem | hmem
    · exact (Context.step_covers hne hstep).texts lexeme hmem
    · exact ih lexeme hmem

/-- How a reading of a given source is looked up by evaluation. -/
theorem tokenize_of_toOption {source : String} {tokens : List Token}
    (h : (tokenize source).toOption = some tokens) : tokenize source = .ok tokens := by
  cases hresult : tokenize source with
  | ok found =>
    rw [hresult] at h
    cases h
    rfl
  | error =>
    rw [hresult] at h
    cases h

/-- How a failure on a given source is looked up by evaluation. -/
theorem tokenize_of_error {source : String} {error : LexError}
    (h : (match tokenize source with
      | .ok _ => none
      | .error found => some found) = some error) : tokenize source = .error error := by
  cases hresult : tokenize source with
  | ok tokens => simp [hresult] at h
  | error found =>
    simp only [hresult, Option.some.injEq] at h
    rw [h]

theorem reads_of_tokenize {source : String} {tokens : List Token}
    (h : tokenize source = .ok tokens) :
    ∃ lexemes, Reads (.start source.toList) lexemes ∧ tokens = Token.place 1 lexemes :=
  Reads.of_run h

end Lexer

/-! ## The partition -/

theorem spell_tokenize {source : String} {tokens : List Token} (h : tokenize source = .ok tokens) :
    Token.spell tokens = source.toList := by
  obtain ⟨lexemes, hreads, rfl⟩ := Lexer.reads_of_tokenize h
  rw [Token.spell_place, hreads.spell_eq]
  rfl

theorem placed_tokenize {source : String} {tokens : List Token} (h : tokenize source = .ok tokens) :
    Token.Placed 1 tokens := by
  obtain ⟨lexemes, -, rfl⟩ := Lexer.reads_of_tokenize h
  exact Token.placed_place 1 lexemes

theorem text_ne_empty_of_mem_tokenize {source : String} {tokens : List Token}
    (h : tokenize source = .ok tokens) {token : Token} (hmem : token ∈ tokens) :
    token.text ≠ "" := by
  obtain ⟨lexemes, hreads, rfl⟩ := Lexer.reads_of_tokenize h
  obtain ⟨lexeme, hlexeme, -, htext⟩ := Token.exists_lexeme_of_mem_place hmem
  intro hempty
  exact hreads.text_ne_nil lexeme hlexeme (by rw [← htext, hempty]; rfl)

/-- **The tokens of a source partition it**: none is empty, they spell the source, and each stands
on the line that the newlines in the texts before it say. -/
theorem tokenize_partition {source : String} {tokens : List Token}
    (h : tokenize source = .ok tokens) :
    (∀ token ∈ tokens, token.text ≠ "")
      ∧ String.join (tokens.map Token.text) = source
      ∧ ∀ before token after, tokens = before ++ token :: after →
          token.line = 1 + newlines (String.join (before.map Token.text)).toList := by
  refine ⟨fun token => text_ne_empty_of_mem_tokenize h, ?_, ?_⟩
  · rw [← String.toList_inj, Token.toList_join_text, spell_tokenize h]
  · intro before token after htokens
    rw [Token.toList_join_text]
    exact (htokens ▸ placed_tokenize h).line_eq

/-- A source that leaves the tags, with a string over two lines that holds a variable. -/
theorem tokenize_partition_interpolated :
    ∃ tokens, tokenize "a\n<?php\n\"x\n$b[0]\";" = .ok tokens
      ∧ tokens.map Token.line = [1, 2, 3, 3, 4, 4, 4, 4, 4, 4]
      ∧ (∀ token ∈ tokens, token.text ≠ "")
      ∧ String.join (tokens.map Token.text) = "a\n<?php\n\"x\n$b[0]\";"
      ∧ ∀ before token after, tokens = before ++ token :: after →
          token.line = 1 + newlines (String.join (before.map Token.text)).toList := by
  have h : (tokenize "a\n<?php\n\"x\n$b[0]\";").toOption = some
      [⟨.html, "a\n", 1⟩, ⟨.tag .open_, "<?php\n", 2⟩, ⟨.punct, "\"", 3⟩, ⟨.literal, "x\n", 3⟩,
        ⟨.variable_, "$b", 4⟩, ⟨.punct, "[", 4⟩, ⟨.var .offset, "0", 4⟩, ⟨.punct, "]", 4⟩,
        ⟨.punct, "\"", 4⟩, ⟨.punct, ";", 4⟩] := by decide +kernel
  have h := Lexer.tokenize_of_toOption h
  exact ⟨_, h, rfl, tokenize_partition h⟩

end Listing
