import Listing.Proofs.Endings

/-!
# Shapes of what is read

The rules for program text are many, but what they read has few shapes (`Code.Shape`): a run of
spaces, a word, a number, a sign of some kind, a string in which nothing is replaced, the opening of
one in which something is, the opening line of a heredoc, a nowdoc, or a closing tag. A sign is read
in one piece and does not begin like a name, as words are tried before the rule that takes any
character (`Code.scan_shape`).

In the body of a string there is literal text up to a closing mark, a variable or an opening of code
(`Body.Shape`). A variable takes along nothing, an offset or a member (`Body.access_cases`).

So what a step of the reader keeps is seen in four cases (`Context.step_cases`), and two of them,
code and bodies, by the shapes.
-/

namespace Listing

open Text

theorem isNameStart_of_isDigit {c : Char} (h : c.isDigit = true) : isNameStart c = false := by
  have hrange : 48 ≤ c.toNat ∧ c.toNat ≤ 57 := by
    simpa [Char.isDigit, UInt32.le_iff_toNat_le] using h
  have hne : c ≠ '_' := by
    rintro rfl
    cases h
  delta isNameStart Char.isAlpha Char.isUpper Char.isLower
  simp [UInt32.le_iff_toNat_le, hne]
  omega

/-- Kinds of the words that have a meaning of their own. -/
def Kind.isReserved : Kind → Bool
  | .keyword _ | .flow _ | .callable | .construct _ | .magic _ => true
  | .op .logicalAnd | .op .logicalOr | .op .logicalXor => true
  | _ => false

/-- Kinds of what is neither space, word nor number and is read in one piece: casts, variables,
comments, operators and punctuation. -/
def Kind.isSign : Kind → Bool
  | .cast _ | .variable_ | .comment | .docComment | .badCharacter | .punct => true
  | .grammar .attribute | .grammar .doubleArrow | .separator => true
  | .grammar .arrow | .grammar .nullsafeArrow => true
  | .op operator => !(Kind.op operator).isReserved
  | _ => false

theorem Kind.isPlain_of_isSign {kind : Kind} (h : kind.isSign = true) : kind.isPlain = true := by
  unfold Kind.isSign at h
  split at h
  all_goals first | rfl | cases h

/-- What is said of a text is said of it as a lexeme, if it is one. -/
theorem Lexeme.forall_mem_ofText {P : Lexeme → Prop} {kind : Kind} {text : List Char}
    (h : P ⟨kind, text⟩) : ∀ lexeme ∈ ofText kind text, P lexeme := by
  intro lexeme hmem
  rw [Lexer.eq_of_mem_ofText hmem]
  exact h

namespace Lexer

/-! ## Signs -/

/-- One lexeme was read, off a text that does not begin like a name, and its kind is that of a
sign. -/
def Scan.IsSign (cs : List Char) (scan : Scan) : Prop :=
  headIs isNameStart cs = false
    ∧ ∃ kind text rest, kind.isSign = true ∧ scan = .one kind text rest

/-- A rule that reads signs. -/
def Rule.Signs (rule : Rule) : Prop :=
  ∀ previous cs scan, rule previous cs = some (.ok scan) → scan.IsSign cs

namespace Trivia

theorem lineComment_signs : Rule.Signs lineComment := by
  intro previous cs scan h
  unfold lineComment at h
  split at h
  · next hopens =>
    cases h
    refine ⟨?_, _, _, _, rfl, rfl⟩
    unfold opensLine at hopens
    split at hopens
    · rfl
    · rfl
    · cases hopens
  · cases h

theorem blockComment_signs : Rule.Signs blockComment := by
  intro previous cs scan h
  unfold blockComment at h
  split at h
  · cases h
  · next inside hinside =>
    rw [← strip?_eq_some hinside]
    split at h
    · cases h
    · cases h
      refine ⟨rfl, _, _, _, ?_, rfl⟩
      split <;> rfl

end Trivia

namespace Number

/-- What is read as a number does not begin like a name, and is an integer or a float. -/
theorem rule_cases {previous : Option Kind} {cs : List Char} {scan : Scan}
    (h : rule previous cs = some (.ok scan)) :
    headIs isNameStart cs = false
      ∧ ∃ kind text rest, (kind = .int ∨ kind = .float) ∧ scan = .one kind text rest := by
  unfold rule at h
  split at h
  · next hbegins =>
    cases h
    refine ⟨?_, _, _, _, split_kind cs, rfl⟩
    cases cs with
    | nil => rfl
    | cons c cs =>
      rw [begins, Bool.or_eq_true, Bool.and_eq_true, beq_iff_eq] at hbegins
      rcases hbegins with hdigit | ⟨rfl, -⟩
      · exact isNameStart_of_isDigit hdigit
      · rfl
  · cases h

end Number

namespace Sign

theorem attribute_signs : Rule.Signs attribute_ := by
  intro previous cs scan h
  unfold attribute_ at h
  split at h
  · next rest hrest =>
    rw [← strip?_eq_some hrest]
    cases h
    exact ⟨rfl, _, _, _, rfl, rfl⟩
  · cases h

theorem variable_signs : Rule.Signs variable_ := by
  intro previous cs scan h
  unfold variable_ at h
  split at h
  · split at h
    · cases h
      exact ⟨rfl, _, _, _, rfl, rfl⟩
    · cases h
  · cases h

theorem cast_signs : Rule.Signs cast := by
  intro previous cs scan h
  unfold cast at h
  split at h
  · dsimp only at h
    split at h
    · cases h
      exact ⟨rfl, _, _, _, rfl, rfl⟩
    · cases h
  · cases h

theorem separator_signs : Rule.Signs separator := by
  intro previous cs scan h
  unfold separator at h
  split at h
  · cases h
    exact ⟨rfl, _, _, _, rfl, rfl⟩
  · cases h

theorem operators_isSign :
    ∀ entry ∈ operators, entry.2.isSign = true ∧ headIs isNameStart entry.1 = false := by decide

theorem operator_signs : Rule.Signs operator := by
  intro previous cs scan h
  unfold operator at h
  split at h
  · next kind text rest hfound =>
    cases h
    obtain ⟨entry, hmem, hentry⟩ := List.exists_of_findSome?_eq_some hfound
    obtain ⟨after, hafter, heq⟩ := Option.map_eq_some_iff.1 hentry
    cases heq
    obtain ⟨hsign, hhead⟩ := operators_isSign entry hmem
    refine ⟨?_, _, _, _, hsign, rfl⟩
    rw [← strip?_eq_some hafter, headIs_append (operators_ne_nil entry hmem)]
    exact hhead
  · cases h

/-- The last rule takes any character. -/
theorem character_isSign {previous : Option Kind} {cs : List Char} {scan : Scan}
    (hs : headIs isNameStart cs = false) (h : character previous cs = some (.ok scan)) :
    scan.IsSign cs := by
  unfold character at h
  split at h
  · cases h
  · cases h
    refine ⟨hs, _, _, _, ?_, rfl⟩
    split <;> rfl

end Sign

/-! ## Words -/

namespace Word

/-- A word is a name, or the table has its kind. -/
theorem kindAfter_eq_or (previous : Option Kind) (word : List Char) :
    kindAfter previous word = .name ∨ reserved? word = some (kindAfter previous word) := by
  unfold kindAfter
  split
  · exact .inl rfl
  · split
    · exact .inl rfl
    · cases reserved? word with
      | none => exact .inl rfl
      | some kind => exact .inr rfl

theorem table_isReserved : ∀ entry ∈ table, entry.2.isReserved = true := by decide

theorem kindAfter_eq_name_or (previous : Option Kind) (word : List Char) :
    kindAfter previous word = .name ∨ (kindAfter previous word).isReserved = true := by
  rcases kindAfter_cases previous word with hname | ⟨entry, hmem, hentry⟩
  · exact .inl hname
  · rw [← hentry]
    exact .inr (table_isReserved entry hmem)

/-- What is read as a word: the longest there is, as the kind that it has in its place. But `yield`
may take a `from` along, and `enum` may be no more than a name. -/
theorem rule_cases {previous : Option Kind} {cs : List Char} {scan : Scan}
    (h : rule previous cs = some (.ok scan)) :
    headIs isNameStart cs = true
      ∧ (scan = .one (kindAfter previous (cs.takeWhile isNameChar)) (cs.takeWhile isNameChar)
            (cs.dropWhile isNameChar)
        ∨ (∃ tail rest, from? (cs.dropWhile isNameChar) = some (tail, rest)
          ∧ scan = .one (.flow .yieldFrom) (cs.takeWhile isNameChar ++ tail) rest)
        ∨ (kindAfter previous (cs.takeWhile isNameChar) = .keyword .enum
          ∧ scan = .one .name (cs.takeWhile isNameChar) (cs.dropWhile isNameChar))) := by
  unfold rule at h
  split at h
  · next hs =>
    refine ⟨hs, ?_⟩
    dsimp only at h
    split at h
    · next hkind =>
      split at h
      · next tail rest hfrom =>
        cases h
        exact .inr (.inl ⟨tail, rest, hfrom, rfl⟩)
      · cases h
        rw [hkind]
        exact .inl rfl
    · next hkind =>
      cases h
      split
      · rw [hkind]
        exact .inl rfl
      · exact .inr (.inr ⟨hkind, rfl⟩)
    · cases h
      exact .inl rfl
  · cases h

theorem headIs_of_rule_eq_none {previous : Option Kind} {cs : List Char}
    (h : rule previous cs = none) : headIs isNameStart cs = false := by
  unfold rule at h
  split at h
  · dsimp only at h
    repeat' split at h
    all_goals cases h
  · next hs => simpa using hs

end Word

/-! ## Strings -/

namespace Quoted

/-- The quote of a string, perhaps with the letter of a binary string before it. -/
def IsOpening (quote : Char) (text : List Char) : Prop :=
  (quote = single ∨ quote = double ∨ quote = back)
    ∧ ∃ mark, (mark = [] ∨ mark = ['b'] ∨ mark = ['B']) ∧ text = mark ++ [quote]

end Quoted

/-! ## Program text -/

namespace Code

/-- What a scan of program text is. -/
inductive Shape (previous : Option Kind) (cs : List Char) : Scan → Prop
  | gap : headIs isSpace cs = true →
      Shape previous cs (.one .whitespace (cs.takeWhile isSpace) (cs.dropWhile isSpace))
  | word {scan : Scan} : Word.rule previous cs = some (.ok scan) → Shape previous cs scan
  | number {scan : Scan} : Number.rule previous cs = some (.ok scan) → Shape previous cs scan
  | sign {scan : Scan} : scan.IsSign cs → Shape previous cs scan
  | string {quote : Char} {opening body rest : List Char} : Quoted.IsOpening quote opening →
      Shape previous cs ⟨Quoted.plain opening body quote, rest, .stay⟩
  | enter {quote : Char} {opening rest : List Char} {closer : Closer} :
      Quoted.IsOpening quote opening → Shape previous cs ⟨[⟨.punct, opening⟩], rest, .enter closer⟩
  | heredoc {header : Heredoc.Header} : Heredoc.header? cs = some header →
      Shape previous cs
        ⟨[⟨.grammar .startHeredoc, header.text⟩], header.rest, .enter (.label header.label)⟩
  | nowdoc {header : Heredoc.Header} {body closing rest : List Char} :
      Heredoc.header? cs = some header →
      Shape previous cs
        ⟨⟨.grammar .startHeredoc, header.text⟩ :: Lexeme.ofText .literal body
          ++ [⟨.grammar .endHeredoc, closing⟩], rest, .stay⟩
  | leave {text rest : List Char} : headIs isNameStart text = false →
      Shape previous cs ⟨[⟨.tag .close, text⟩], rest, .leave⟩

section Rules

variable {previous : Option Kind} {cs : List Char} {scan : Scan}

theorem shape_of_singleQuoted (h : Quoted.singleQuoted previous cs = some (.ok scan)) :
    Shape previous cs scan := by
  unfold Quoted.singleQuoted at h
  split at h
  · cases h
  · next opening inside hopening =>
    split at h
    · cases h
    · cases h
      exact .string ⟨.inl rfl, Quoted.opening?_shape hopening⟩

theorem shape_of_doubleQuoted (h : Quoted.doubleQuoted previous cs = some (.ok scan)) :
    Shape previous cs scan := by
  unfold Quoted.doubleQuoted at h
  split at h
  · cases h
  · next opening inside hopening =>
    have hquote : Quoted.IsOpening Quoted.double opening :=
      ⟨.inr (.inl rfl), Quoted.opening?_shape hopening⟩
    split at h
    · cases h
    · split at h
      · cases h
        exact .enter hquote
      · cases h
        exact .string hquote

theorem shape_of_backQuoted (h : Quoted.backQuoted previous cs = some (.ok scan)) :
    Shape previous cs scan := by
  unfold Quoted.backQuoted at h
  split at h
  · cases h
  · cases h
    exact .enter ⟨.inr (.inr rfl), [], .inl rfl, rfl⟩

theorem shape_of_heredoc (h : Heredoc.rule previous cs = some (.ok scan)) :
    Shape previous cs scan := by
  obtain ⟨header, hheader, rfl | ⟨body, line, closing, -, -, rfl⟩⟩ := Heredoc.rule_cases h
  · exact .heredoc hheader
  · exact .nowdoc hheader

theorem shape_of_spaces (h : Trivia.spaces previous cs = some (.ok scan)) :
    Shape previous cs scan := by
  unfold Trivia.spaces at h
  split at h
  · next hs =>
    cases h
    exact .gap hs
  · cases h

theorem shape_of_closeTag (h : Trivia.closeTag previous cs = some (.ok scan)) :
    Shape previous cs scan := by
  unfold Trivia.closeTag at h
  split at h
  · cases h
    exact .leave rfl
  · split at h
    · cases h
      exact .leave rfl
    · cases h

end Rules

/-- Either a rule before the last has answered, or the last, and then the text does not begin like a
name. -/
theorem exists_rule_or_character (previous : Option Kind) {cs : List Char} (h : cs ≠ []) :
    (∃ rule ∈ rules.dropLast, rule previous cs = some (scan previous cs))
      ∨ headIs isNameStart cs = false ∧ Sign.character previous cs = some (scan previous cs) := by
  have hsplit : (rules.findSome? fun rule => rule previous cs)
      = (rules.dropLast.findSome? fun rule => rule previous cs).or
        ([Sign.character].findSome? fun rule => rule previous cs) := by
    rw [← List.findSome?_append]
    rfl
  cases hfront : rules.dropLast.findSome? fun rule => rule previous cs with
  | some answer =>
    obtain ⟨rule, hmem, hr⟩ := List.exists_of_findSome?_eq_some hfront
    refine .inl ⟨rule, hmem, ?_⟩
    rw [hr, scan, hsplit, hfront]
    rfl
  | none =>
    rw [List.findSome?_eq_none_iff] at hfront
    refine .inr ⟨Word.headIs_of_rule_eq_none (hfront _ (by simp [rules])), ?_⟩
    obtain ⟨rule, hmem, hr⟩ := exists_rule previous h
    have hlast : rules = rules.dropLast ++ [Sign.character] := rfl
    rw [hlast, List.mem_append, List.mem_singleton] at hmem
    rcases hmem with hmem | rfl
    · rw [hfront rule hmem] at hr
      cases hr
    · exact hr

theorem scan_shape {previous : Option Kind} {cs : List Char} {found : Scan} (hne : cs ≠ [])
    (h : scan previous cs = .ok found) : Shape previous cs found := by
  obtain ⟨rule, hmem, hr⟩ | ⟨hs, hr⟩ := exists_rule_or_character previous hne
  · rw [h] at hr
    simp only [rules, List.dropLast, List.mem_cons, List.not_mem_nil, or_false] at hmem
    rcases hmem with rfl | rfl | rfl | rfl | rfl | rfl | rfl | rfl | rfl | rfl | rfl | rfl | rfl
      | rfl | rfl
    · exact shape_of_heredoc hr
    · exact .sign (Sign.cast_signs _ _ _ hr)
    · exact shape_of_spaces hr
    · exact shape_of_closeTag hr
    · exact .sign (Sign.attribute_signs _ _ _ hr)
    · exact .sign (Trivia.lineComment_signs _ _ _ hr)
    · exact .sign (Trivia.blockComment_signs _ _ _ hr)
    · exact .sign (Sign.variable_signs _ _ _ hr)
    · exact shape_of_singleQuoted hr
    · exact shape_of_doubleQuoted hr
    · exact shape_of_backQuoted hr
    · exact .number hr
    · exact .sign (Sign.separator_signs _ _ _ hr)
    · exact .word hr
    · exact .sign (Sign.operator_signs _ _ _ hr)
  · rw [h] at hr
    exact .sign (Sign.character_isSign hs hr)

end Code

/-! ## Bodies of strings -/

namespace Body

/-- A key is a number, a variable, or a name that is read to its end. -/
theorem key?_cases {cs text rest : List Char} {kind : Kind}
    (h : key? cs = some (kind, text, rest)) :
    (kind = .name ∧ text = cs.takeWhile isNameChar ∧ rest = cs.dropWhile isNameChar)
      ∨ kind = .var .offset ∨ kind = .variable_ := by
  unfold key? at h
  split at h
  · cases h
  · next c cs =>
    split at h
    · split at h
      · cases h
        exact .inr (.inl rfl)
      · cases h
    · split at h
      · cases h
        exact .inr (.inl rfl)
      · split at h
        · split at h
          · cases h
            exact .inr (.inr rfl)
          · cases h
        · split at h
          · next hs =>
            cases h
            have hc := isNameChar_of_isNameStart hs
            exact .inl ⟨rfl, by simp [hc], by simp [hc]⟩
          · cases h

theorem offset?_cases {cs rest : List Char} {lexemes : List Lexeme}
    (h : offset? cs = some (lexemes, rest)) :
    ∃ inside kind text, key? inside = some (kind, text, ']' :: rest)
      ∧ lexemes = [⟨.punct, ['[']⟩, ⟨kind, text⟩, ⟨.punct, [']']⟩] := by
  unfold offset? at h
  split at h
  · cases h
  · next inside hinside =>
    split at h
    · cases h
    · next kind text after hkey =>
      obtain ⟨last, hlast, heq⟩ := Option.map_eq_some_iff.1 h
      cases heq
      rw [← strip?_eq_some hlast] at hkey
      exact ⟨inside, kind, text, hkey, rfl⟩

theorem member?_cases {kind : Grammar} {arrow cs rest : List Char} {lexemes : List Lexeme}
    (h : member? kind arrow cs = some (lexemes, rest)) :
    ∃ name : List Char, headIs isNameStart name = true
      ∧ lexemes = [⟨.grammar kind, arrow⟩, ⟨.name, name.takeWhile isNameChar⟩]
      ∧ rest = name.dropWhile isNameChar := by
  unfold member? at h
  split at h
  · cases h
  · next name _ =>
    split at h
    · next hs =>
      cases h
      exact ⟨name, hs, rfl, rfl⟩
    · cases h

/-- What a variable takes along: nothing, an offset, or a member. -/
theorem access_cases (cs : List Char) :
    (access cs).1 = []
      ∨ (∃ inside kind text, key? inside = some (kind, text, ']' :: (access cs).2)
        ∧ (access cs).1 = [⟨.punct, ['[']⟩, ⟨kind, text⟩, ⟨.punct, [']']⟩])
      ∨ ∃ kind arrow, ∃ name : List Char, (kind = .arrow ∨ kind = .nullsafeArrow)
        ∧ headIs isNameStart name = true
        ∧ (access cs).1 = [⟨.grammar kind, arrow⟩, ⟨.name, name.takeWhile isNameChar⟩]
        ∧ (access cs).2 = name.dropWhile isNameChar := by
  unfold access
  cases hoffset : offset? cs with
  | some found => exact .inr (.inl (offset?_cases hoffset))
  | none =>
    cases harrow : member? .arrow ['-', '>'] cs with
    | some found =>
      obtain ⟨name, hs, hlexemes, hrest⟩ := member?_cases harrow
      exact .inr (.inr ⟨.arrow, _, name, .inl rfl, hs, hlexemes, hrest⟩)
    | none =>
      cases hnullsafe : member? .nullsafeArrow ['?', '-', '>'] cs with
      | some found =>
        obtain ⟨name, hs, hlexemes, hrest⟩ := member?_cases hnullsafe
        exact .inr (.inr ⟨.nullsafeArrow, _, name, .inr rfl, hs, hlexemes, hrest⟩)
      | none => exact .inl rfl

theorem braced_cases (cs : List Char) :
    (braced cs).1 = [] ∨ ∃ text, (braced cs).1 = [⟨.var .braced, text⟩] := by
  unfold braced
  split
  · exact .inr ⟨_, rfl⟩
  · exact .inl rfl

/-- What ends a stretch of literal text. -/
inductive Shape : Event → Prop
  | quote {mark : Char} {rest : List Char} : mark = Quoted.double ∨ mark = Quoted.back →
      Shape (.close [⟨.punct, [mark]⟩] rest)
  | label {text rest : List Char} : Shape (.close [⟨.grammar .endHeredoc, text⟩] rest)
  | splice {name after : List Char} :
      Shape (.splice (⟨.variable_, '$' :: name⟩ :: (access after).1) (access after).2)
  | dollarBrace {name : List Lexeme} {rest : List Char} :
      (name = [] ∨ ∃ text, name = [⟨.var .braced, text⟩]) →
      Shape (.hole (⟨.grammar .dollarCurlyOpen, ['$', '\x7b']⟩ :: name) rest)
  | brace {rest : List Char} : Shape (.hole [⟨.grammar .curlyOpen, ['\x7b']⟩] rest)

theorem close?_shape {closer : Closer} {fresh : Bool} {cs : List Char} {event : Event}
    (h : close? closer fresh cs = some event) : Shape event := by
  unfold close? at h
  split at h
  · obtain ⟨after, -, heq⟩ := Option.map_eq_some_iff.1 h
    rw [← heq]
    exact .quote (.inl rfl)
  · obtain ⟨after, -, heq⟩ := Option.map_eq_some_iff.1 h
    rw [← heq]
    exact .quote (.inr rfl)
  · split at h
    · obtain ⟨found, -, heq⟩ := Option.map_eq_some_iff.1 h
      rw [← heq]
      exact .label
    · cases h

theorem seek_shape {closer : Closer} {fresh : Bool} {cs text : List Char} {event : Event}
    (h : seek closer fresh cs = some (text, event)) : Shape event := by
  obtain ⟨onward, fresh', -, hevent⟩ := exists_onward_of_seek h
  rcases Option.or_eq_some_iff.1 hevent with hclose | ⟨-, hinterpolation⟩
  · exact close?_shape hclose
  · obtain ⟨d, ds, -, rfl⟩ | ⟨ds, -, rfl⟩ | ⟨ds, -, rfl⟩ := interpolation?_cases hinterpolation
    · exact .splice
    · exact .dollarBrace (braced_cases ds)
    · exact .brace

end Body

/-! ## Contexts -/

namespace Context

/-- Code is read in the context, token by token. -/
def ReadsCode : Context → Prop
  | .code | .halting | .hole .. => True
  | .html | .data | .body .. => False

/-- What a step reads: text around the program, text behind it, code, or the body of a string. -/
theorem step_cases {context : Context} {line : Nat} {previous : Option Kind} {cs : List Char}
    {next : Step} (h : context.step line previous cs = .ok next) :
    (context = .html ∧ next = stepHtml cs)
      ∨ (context = .data ∧ next = ⟨[⟨.html, cs⟩], [], .data⟩)
      ∨ (context.ReadsCode ∧ context.stepCode line previous cs = .ok next)
      ∨ ∃ closer opened fresh outer, context = .body closer opened fresh outer
        ∧ stepBody closer opened fresh outer line cs = .ok next := by
  cases context with
  | html =>
    cases h
    exact .inl ⟨rfl, rfl⟩
  | data =>
    cases h
    exact .inr (.inl ⟨rfl, rfl⟩)
  | code => exact .inr (.inr (.inl ⟨trivial, h⟩))
  | halting => exact .inr (.inr (.inl ⟨trivial, h⟩))
  | hole => exact .inr (.inr (.inl ⟨trivial, h⟩))
  | body closer opened fresh outer =>
    exact .inr (.inr (.inr ⟨closer, opened, fresh, outer, rfl, h⟩))

end Context

end Lexer

end Listing
