import Listing.Lexer.Heredoc
import Listing.Lexer.Number
import Listing.Lexer.Sign
import Listing.Lexer.Trivia
import Listing.Lexer.Word

/-!
# Program text

The rules for program text in the order in which they are tried; the first that does not pass
decides. `scan_covers`: on a text that is not empty the answer is an error or a loss-free cut.
-/

namespace Listing.Lexer.Code

/-- The rules, in order of precedence. -/
def rules : List Rule :=
  [Heredoc.rule, Sign.cast, Trivia.spaces, Trivia.closeTag, Sign.attribute_, Trivia.lineComment,
   Trivia.blockComment, Sign.variable_, Quoted.singleQuoted, Quoted.doubleQuoted,
   Quoted.backQuoted, Number.rule, Sign.separator, Word.rule, Sign.operator, Sign.character]

/-- The next token of program text, or the construct it leaves open. -/
def scan (previous : Option Kind) (cs : List Char) : Except Unterminated Scan :=
  (rules.findSome? fun rule => rule previous cs).getD (.ok { lexemes := [], rest := cs })

theorem rules_conserve : ∀ rule ∈ rules, Rule.Conserves rule := by
  intro rule h
  simp only [rules, List.mem_cons, List.not_mem_nil, or_false] at h
  rcases h with rfl | rfl | rfl | rfl | rfl | rfl | rfl | rfl | rfl | rfl | rfl | rfl | rfl | rfl
    | rfl | rfl
  · exact Heredoc.rule_conserves
  · exact Sign.cast_conserves
  · exact Trivia.spaces_conserves
  · exact Trivia.closeTag_conserves
  · exact Sign.attribute_conserves
  · exact Trivia.lineComment_conserves
  · exact Trivia.blockComment_conserves
  · exact Sign.variable_conserves
  · exact Quoted.singleQuoted_conserves
  · exact Quoted.doubleQuoted_conserves
  · exact Quoted.backQuoted_conserves
  · exact Number.rule_conserves
  · exact Sign.separator_conserves
  · exact Word.rule_conserves
  · exact Sign.operator_conserves
  · exact Sign.character_conserves

theorem exists_rule (previous : Option Kind) {cs : List Char} (h : cs ≠ []) :
    ∃ rule ∈ rules, rule previous cs = some (scan previous cs) := by
  have hsome : (rules.findSome? fun rule => rule previous cs).isSome = true := by
    rw [List.findSome?_isSome_iff]
    refine ⟨Sign.character, by simp [rules], ?_⟩
    cases cs with
    | nil => exact absurd rfl h
    | cons c cs => rfl
  obtain ⟨answer, ha⟩ := Option.isSome_iff_exists.1 hsome
  obtain ⟨rule, hmem, hr⟩ := List.exists_of_findSome?_eq_some ha
  exact ⟨rule, hmem, by simp [scan, ha, hr]⟩

theorem scan_covers {previous : Option Kind} {cs : List Char} {found : Scan} (hne : cs ≠ [])
    (h : scan previous cs = .ok found) : Covers found.lexemes found.rest cs := by
  obtain ⟨rule, hmem, hr⟩ := exists_rule previous hne
  exact rules_conserve rule hmem previous cs found (by rw [hr, h])

end Listing.Lexer.Code
