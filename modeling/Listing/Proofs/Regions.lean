import Listing.Proofs.Lexemes

/-!
# Inside and outside the program

What a rule reads tells which rule it was. A closing tag is the only way out of the program, and the
marks at the edges of heredocs and of the code inside strings are read by the rules for these alone.
Every other rule is plain (`Rule.Plain`): it stays in the program, reads none of those marks, and if
it reads a brace then it reads nothing else. So does the body of a string, but for the marks at its
own edges (`Body.splice_neutral`, `Body.hole_lexemes`, `Body.close_lexemes`).
-/

namespace Listing

open Text

/-- Kinds that stand inside a program: all but tags and the text outside them. -/
def Kind.isInside : Kind → Bool
  | .tag _ | .html => false
  | _ => true

/-- Kinds of the marks that lead from a string into code. -/
def Kind.opensHole : Kind → Bool
  | .grammar .curlyOpen | .grammar .dollarCurlyOpen => true
  | _ => false

/-- Kinds that stand inside a program and mark no edge of what is nested in it. -/
def Kind.isPlain : Kind → Bool
  | .grammar .startHeredoc | .grammar .endHeredoc => false
  | kind => kind.isInside && !kind.opensHole

theorem Kind.isInside_of_isPlain {kind : Kind} (h : kind.isPlain = true) :
    kind.isInside = true := by
  unfold Kind.isPlain at h
  split at h
  · cases h
  · cases h
  · exact (Bool.and_eq_true_iff.1 h).1

theorem Kind.opensHole_of_isPlain {kind : Kind} (h : kind.isPlain = true) :
    kind.opensHole = false := by
  unfold Kind.isPlain at h
  split at h
  · cases h
  · cases h
  · simpa using (Bool.and_eq_true_iff.1 h).2

theorem Kind.isInside_of_opensHole {kind : Kind} (h : kind.opensHole = true) :
    kind.isInside = true := by
  unfold Kind.opensHole at h
  split at h
  · rfl
  · rfl
  · cases h

/-- The lexeme changes nothing for what is around it: it is no edge and no brace. -/
structure Lexeme.Neutral (lexeme : Lexeme) : Prop where
  isPlain : lexeme.kind.isPlain = true
  not_open : lexeme.isPunct '\x7b' = false
  not_close : lexeme.isPunct '\x7d' = false

namespace Lexeme.Neutral

theorem of_kind {kind : Kind} (h : (kind.isPlain && kind != .punct) = true) (text : List Char) :
    Neutral ⟨kind, text⟩ := by
  obtain ⟨hplain, hpunct⟩ := Bool.and_eq_true_iff.1 h
  rw [bne_iff_ne] at hpunct
  exact ⟨hplain, by simp [isPunct, hpunct], by simp [isPunct, hpunct]⟩

theorem punct {text : List Char} (hopen : text ≠ ['\x7b']) (hclose : text ≠ ['\x7d']) :
    Neutral ⟨.punct, text⟩ :=
  ⟨rfl, by simp [isPunct, hopen], by simp [isPunct, hclose]⟩

theorem isInside {lexeme : Lexeme} (h : lexeme.Neutral) : lexeme.kind.isInside = true :=
  Kind.isInside_of_isPlain h.isPlain

end Lexeme.Neutral

namespace Lexer

/-- Reading stays in the program, and what was read belongs there. -/
structure Scan.Inside (scan : Scan) : Prop where
  turn : scan.turn ≠ .leave
  lexemes : ∀ lexeme ∈ scan.lexemes, lexeme.kind.isInside = true

/-- A rule that never leaves the program. -/
def Rule.StaysInside (rule : Rule) : Prop :=
  ∀ previous cs scan, rule previous cs = some (.ok scan) → scan.Inside

/-- What is read is one lexeme that marks no edge; or a string in which nothing is replaced, or the
quote of one in which something is. -/
inductive Scan.Plain : Scan → Prop
  | one {kind : Kind} {text rest : List Char} : kind.isPlain = true → Plain (.one kind text rest)
  | string {lexemes : List Lexeme} {rest : List Char} : (∀ lexeme ∈ lexemes, lexeme.Neutral) →
      Plain ⟨lexemes, rest, .stay⟩
  | enter {lexemes : List Lexeme} {rest : List Char} {closer : Closer} :
      (∀ lexeme ∈ lexemes, lexeme.Neutral) → (∀ label, closer ≠ .label label) →
      Plain ⟨lexemes, rest, .enter closer⟩

theorem Scan.Plain.isPlain {scan : Scan} (h : scan.Plain) :
    ∀ lexeme ∈ scan.lexemes, lexeme.kind.isPlain = true := by
  cases h with
  | one hkind => simpa using hkind
  | string hall => exact fun lexeme hmem => (hall lexeme hmem).isPlain
  | enter hall => exact fun lexeme hmem => (hall lexeme hmem).isPlain

theorem Scan.Plain.inside {scan : Scan} (h : scan.Plain) : scan.Inside := by
  refine ⟨?_, fun lexeme hmem => Kind.isInside_of_isPlain (h.isPlain lexeme hmem)⟩
  cases h <;> nofun

/-- A rule that reads nothing else. -/
def Rule.Plain (rule : Rule) : Prop :=
  ∀ previous cs scan, rule previous cs = some (.ok scan) → scan.Plain

namespace Trivia

theorem spaces_plain : Rule.Plain spaces := by
  intro previous cs scan h
  unfold spaces at h
  split at h
  · cases h
    exact .one rfl
  · cases h

theorem lineComment_plain : Rule.Plain lineComment := by
  intro previous cs scan h
  unfold lineComment at h
  split at h
  · cases h
    exact .one rfl
  · cases h

theorem blockComment_plain : Rule.Plain blockComment := by
  intro previous cs scan h
  unfold blockComment at h
  split at h
  · cases h
  · split at h
    · cases h
    · cases h
      refine .one ?_
      split <;> rfl

/-- The way out. -/
theorem closeTag_leaves {previous : Option Kind} {cs : List Char} {scan : Scan}
    (h : closeTag previous cs = some (.ok scan)) :
    scan.turn = .leave ∧ ∃ text, scan.lexemes = [⟨.tag .close, text⟩] := by
  unfold closeTag at h
  split at h
  · cases h
    exact ⟨rfl, _, rfl⟩
  · split at h
    · cases h
      exact ⟨rfl, _, rfl⟩
    · cases h

end Trivia

namespace Number

theorem rule_plain : Rule.Plain rule := by
  intro previous cs scan h
  unfold rule at h
  split at h
  · cases h
    refine .one ?_
    rcases split_kind cs with hkind | hkind <;> rw [hkind] <;> rfl
  · cases h

end Number

namespace Sign

theorem attribute_plain : Rule.Plain attribute_ := by
  intro previous cs scan h
  unfold attribute_ at h
  split at h
  · cases h
    exact .one rfl
  · cases h

theorem variable_plain : Rule.Plain variable_ := by
  intro previous cs scan h
  unfold variable_ at h
  split at h
  · split at h
    · cases h
      exact .one rfl
    · cases h
  · cases h

theorem cast_plain : Rule.Plain cast := by
  intro previous cs scan h
  unfold cast at h
  split at h
  · dsimp only at h
    split at h
    · cases h
      exact .one rfl
    · cases h
  · cases h

theorem separator_plain : Rule.Plain separator := by
  intro previous cs scan h
  unfold separator at h
  split at h
  · cases h
    exact .one rfl
  · cases h

theorem operators_isPlain : ∀ entry ∈ operators, entry.2.isPlain = true := by decide

theorem operator_plain : Rule.Plain operator := by
  intro previous cs scan h
  unfold operator at h
  split at h
  · next kind text rest e =>
    cases h
    obtain ⟨entry, hmem, he⟩ := List.exists_of_findSome?_eq_some e
    obtain ⟨after, -, hentry⟩ := Option.map_eq_some_iff.1 he
    cases hentry
    exact .one (operators_isPlain entry hmem)
  · cases h

theorem character_plain : Rule.Plain character := by
  intro previous cs scan h
  unfold character at h
  split at h
  · cases h
  · cases h
    refine .one ?_
    split <;> rfl

end Sign

namespace Word

theorem table_isPlain : ∀ entry ∈ table, entry.2.isPlain = true := by decide

theorem kindAfter_isPlain (previous : Option Kind) (word : List Char) :
    (kindAfter previous word).isPlain = true := by
  rcases kindAfter_cases previous word with h | ⟨entry, hmem, h⟩
  · rw [h]
    rfl
  · rw [← h]
    exact table_isPlain entry hmem

theorem rule_plain : Rule.Plain rule := by
  intro previous cs scan h
  unfold rule at h
  split at h
  · dsimp only at h
    split at h
    · split at h
      · cases h
        exact .one rfl
      · cases h
        exact .one rfl
    · cases h
      refine .one ?_
      split <;> rfl
    · cases h
      exact .one (kindAfter_isPlain _ _)
  · cases h

end Word

namespace Quoted

theorem neutral_plain (opening body : List Char) {quote : Char}
    (hopening : Lexeme.Neutral ⟨.punct, opening⟩) (hquote : Lexeme.Neutral ⟨.punct, [quote]⟩) :
    ∀ lexeme ∈ plain opening body quote, lexeme.Neutral := by
  intro lexeme hmem
  unfold plain at hmem
  split at hmem
  · simp only [List.mem_cons, List.not_mem_nil, or_false] at hmem
    rcases hmem with rfl | rfl | rfl
    · exact hopening
    · exact .of_kind rfl body
    · exact hquote
  · rw [List.mem_singleton] at hmem
    subst hmem
    exact .of_kind rfl _

/-- An opening quote is no brace. -/
theorem neutral_opening {quote : Char} (hopen : quote ≠ '\x7b') (hclose : quote ≠ '\x7d')
    {cs opening inside : List Char} (h : opening? quote cs = some (opening, inside)) :
    Lexeme.Neutral ⟨.punct, opening⟩ := by
  obtain ⟨mark, hmark, rfl⟩ := opening?_shape h
  rcases hmark with rfl | rfl | rfl <;> exact .punct (by simp [hopen]) (by simp [hclose])

theorem singleQuoted_plain : Rule.Plain singleQuoted := by
  intro previous cs scan h
  unfold singleQuoted at h
  split at h
  · cases h
  · next opening inside hopening =>
    split at h
    · cases h
    · cases h
      exact .string (neutral_plain _ _ (neutral_opening (by decide) (by decide) hopening)
        (.punct (by decide) (by decide)))

theorem doubleQuoted_plain : Rule.Plain doubleQuoted := by
  intro previous cs scan h
  unfold doubleQuoted at h
  split at h
  · cases h
  · next opening inside hopening =>
    have hneutral := neutral_opening (by decide) (by decide) hopening
    split at h
    · cases h
    · split at h
      · cases h
        exact .enter (by simpa using hneutral) nofun
      · cases h
        exact .string (neutral_plain _ _ hneutral (.punct (by decide) (by decide)))

theorem backQuoted_plain : Rule.Plain backQuoted := by
  intro previous cs scan h
  unfold backQuoted at h
  split at h
  · cases h
  · cases h
    have hquote : Lexeme.Neutral ⟨.punct, [back]⟩ := .punct (by decide) (by decide)
    exact .enter (by simpa using hquote) nofun

end Quoted

theorem eq_of_mem_ofText {kind : Kind} {text : List Char} {lexeme : Lexeme}
    (h : lexeme ∈ Lexeme.ofText kind text) : lexeme = ⟨kind, text⟩ := by
  unfold Lexeme.ofText at h
  split at h
  · cases h
  · exact List.mem_singleton.1 h

theorem isInside_of_mem_ofText {kind : Kind} (h : kind.isInside = true) (text : List Char) :
    ∀ lexeme ∈ Lexeme.ofText kind text, lexeme.kind.isInside = true := by
  intro lexeme hmem
  rw [eq_of_mem_ofText hmem]
  exact h

theorem neutral_of_mem_literal (text : List Char) :
    ∀ lexeme ∈ Lexeme.ofText .literal text, lexeme.Neutral := by
  intro lexeme hmem
  rw [eq_of_mem_ofText hmem]
  exact .of_kind rfl text

namespace Heredoc

/-- The opening line of a heredoc, or the whole of a nowdoc. -/
theorem rule_cases {previous : Option Kind} {cs : List Char} {scan : Scan}
    (h : rule previous cs = some (.ok scan)) :
    ∃ header, header? cs = some header
      ∧ (scan = ⟨[⟨.grammar .startHeredoc, header.text⟩], header.rest, .enter (.label header.label)⟩
        ∨ ∃ body line closing, untilClose? header.label true header.rest = some (body, line)
          ∧ closeAt? header.label line = some closing
          ∧ scan = ⟨⟨.grammar .startHeredoc, header.text⟩ :: Lexeme.ofText .literal body
            ++ [⟨.grammar .endHeredoc, closing.1⟩], closing.2, .stay⟩) := by
  unfold rule at h
  split at h
  · cases h
  · next header hheader =>
    refine ⟨header, hheader, ?_⟩
    split at h
    · split at h
      · cases h
      · next body line hbody =>
        split at h
        · cases h
        · next text rest hclosing =>
          cases h
          exact .inr ⟨body, line, (text, rest), hbody, hclosing, rfl⟩
    · cases h
      exact .inl rfl

theorem rule_staysInside : Rule.StaysInside rule := by
  intro previous cs scan h
  obtain ⟨header, -, rfl | ⟨body, line, closing, -, -, rfl⟩⟩ := rule_cases h
  · exact ⟨nofun, by simp [Kind.isInside]⟩
  · refine ⟨nofun, ?_⟩
    intro lexeme hmem
    simp only [List.cons_append, List.mem_cons, List.mem_append, List.not_mem_nil,
      or_false] at hmem
    rcases hmem with rfl | hmem | rfl
    · rfl
    · exact isInside_of_mem_ofText rfl _ lexeme hmem
    · rfl

end Heredoc

namespace Body

theorem key?_neutral {cs : List Char} {key : Kind × List Char × List Char}
    (h : key? cs = some key) : Lexeme.Neutral ⟨key.1, key.2.1⟩ := by
  unfold key? at h
  repeat' split at h
  all_goals cases h
  all_goals exact .of_kind rfl _

theorem offset?_neutral {cs rest : List Char} {lexemes : List Lexeme}
    (h : offset? cs = some (lexemes, rest)) : ∀ lexeme ∈ lexemes, lexeme.Neutral := by
  unfold offset? at h
  split at h
  · cases h
  · split at h
    · cases h
    · next kind text after hk =>
      obtain ⟨last, -, he⟩ := Option.map_eq_some_iff.1 h
      cases he
      have hopen : Lexeme.Neutral ⟨.punct, ['[']⟩ := .punct (by decide) (by decide)
      have hclose : Lexeme.Neutral ⟨.punct, [']']⟩ := .punct (by decide) (by decide)
      simpa [hopen, hclose] using key?_neutral hk

theorem member?_neutral {kind : Grammar} {arrow cs rest : List Char} {lexemes : List Lexeme}
    (hkind : (Kind.grammar kind).isPlain = true)
    (h : member? kind arrow cs = some (lexemes, rest)) : ∀ lexeme ∈ lexemes, lexeme.Neutral := by
  unfold member? at h
  split at h
  · cases h
  · next name hname =>
    split at h
    · cases h
      have hmember : Lexeme.Neutral ⟨.name, name.takeWhile isNameChar⟩ := .of_kind rfl _
      simpa [hmember] using Lexeme.Neutral.of_kind (by simpa using hkind) arrow
    · cases h

theorem access_neutral (cs : List Char) : ∀ lexeme ∈ (access cs).1, lexeme.Neutral := by
  unfold access
  cases h1 : offset? cs with
  | some found => simpa using offset?_neutral h1
  | none =>
    cases h2 : member? .arrow ['-', '>'] cs with
    | some found => simpa using member?_neutral rfl h2
    | none =>
      cases h3 : member? .nullsafeArrow ['?', '-', '>'] cs with
      | some found => simpa using member?_neutral rfl h3
      | none => simp

section Events

variable {closer : Closer} {fresh : Bool} {cs text rest : List Char} {lexemes : List Lexeme}

theorem splice_neutral (h : seek closer fresh cs = some (text, .splice lexemes rest)) :
    ∀ lexeme ∈ lexemes, lexeme.Neutral := by
  obtain ⟨onward, fresh', -, he⟩ := exists_onward_of_seek h
  rcases interpolation?_cases (interpolation?_of_event? he nofun)
    with ⟨d, ds, -, heq⟩ | ⟨ds, -, heq⟩ | ⟨ds, -, heq⟩
  · cases heq
    intro lexeme hmem
    rcases List.mem_cons.1 hmem with rfl | hmem
    · exact .of_kind rfl _
    · exact access_neutral _ lexeme hmem
  · cases heq
  · cases heq

/-- A hole begins with its mark, perhaps with a name behind it. -/
theorem hole_lexemes (h : seek closer fresh cs = some (text, .hole lexemes rest)) :
    ∃ opener name, lexemes = opener :: name ∧ opener.kind.opensHole = true
      ∧ ∀ lexeme ∈ name, lexeme.Neutral := by
  obtain ⟨onward, fresh', -, he⟩ := exists_onward_of_seek h
  rcases interpolation?_cases (interpolation?_of_event? he nofun)
    with ⟨d, ds, -, heq⟩ | ⟨ds, -, heq⟩ | ⟨ds, -, heq⟩
  · cases heq
  · cases heq
    refine ⟨_, _, rfl, rfl, ?_⟩
    intro lexeme hmem
    unfold braced at hmem
    split at hmem
    · rw [List.mem_singleton] at hmem
      subst hmem
      exact .of_kind rfl _
    · cases hmem
  · cases heq
    exact ⟨_, [], rfl, rfl, nofun⟩

/-- A body is closed by a quote, or by the line that closes its label. -/
theorem close_lexemes (h : seek closer fresh cs = some (text, .close lexemes rest)) :
    (∃ quote, lexemes = [⟨.punct, [quote]⟩] ∧ Lexeme.Neutral ⟨.punct, [quote]⟩
        ∧ ∀ label, closer ≠ .label label)
      ∨ ∃ label closing, closer = .label label ∧ lexemes = [⟨.grammar .endHeredoc, closing⟩] := by
  obtain ⟨onward, fresh', -, he⟩ := exists_onward_of_seek h
  have hclose := close?_of_event? he
  unfold close? at hclose
  split at hclose
  · obtain ⟨after, -, heq⟩ := Option.map_eq_some_iff.1 hclose
    cases heq
    exact .inl ⟨_, rfl, .punct (by decide) (by decide), nofun⟩
  · obtain ⟨after, -, heq⟩ := Option.map_eq_some_iff.1 hclose
    cases heq
    exact .inl ⟨_, rfl, .punct (by decide) (by decide), nofun⟩
  · split at hclose
    · obtain ⟨found, -, heq⟩ := Option.map_eq_some_iff.1 hclose
      cases heq
      exact .inr ⟨_, found.1, rfl, rfl⟩
    · cases hclose

end Events

theorem seek_isInside {closer : Closer} {fresh : Bool} {cs text : List Char} {event : Event}
    (h : seek closer fresh cs = some (text, event)) :
    ∀ lexeme ∈ event.lexemes, lexeme.kind.isInside = true := by
  intro lexeme hmem
  cases event with
  | close lexemes rest =>
    obtain ⟨quote, rfl, -⟩ | ⟨label, closing, -, rfl⟩ := close_lexemes h
    · rw [List.mem_singleton.1 hmem]
      rfl
    · rw [List.mem_singleton.1 hmem]
      rfl
  | splice lexemes rest =>
    exact (splice_neutral h lexeme hmem).isInside
  | hole lexemes rest =>
    obtain ⟨opener, name, rfl, hopener, hname⟩ := hole_lexemes h
    rcases List.mem_cons.1 hmem with rfl | hmem
    · exact Kind.isInside_of_opensHole hopener
    · exact (hname lexeme hmem).isInside

end Body

namespace Code

/-- A scan of program text is plain, or it has read a heredoc or a closing tag. -/
theorem scan_cases {previous : Option Kind} {cs : List Char} {found : Scan} (hne : cs ≠ [])
    (h : scan previous cs = .ok found) :
    found.Plain ∨ Heredoc.rule previous cs = some (.ok found)
      ∨ found.turn = .leave ∧ ∃ text, found.lexemes = [⟨.tag .close, text⟩] := by
  obtain ⟨rule, hmem, hr⟩ := exists_rule previous hne
  rw [h] at hr
  simp only [rules, List.mem_cons, List.not_mem_nil, or_false] at hmem
  rcases hmem with rfl | rfl | rfl | rfl | rfl | rfl | rfl | rfl | rfl | rfl | rfl | rfl | rfl
    | rfl | rfl | rfl
  · exact .inr (.inl hr)
  · exact .inl (Sign.cast_plain _ _ _ hr)
  · exact .inl (Trivia.spaces_plain _ _ _ hr)
  · exact .inr (.inr (Trivia.closeTag_leaves hr))
  · exact .inl (Sign.attribute_plain _ _ _ hr)
  · exact .inl (Trivia.lineComment_plain _ _ _ hr)
  · exact .inl (Trivia.blockComment_plain _ _ _ hr)
  · exact .inl (Sign.variable_plain _ _ _ hr)
  · exact .inl (Quoted.singleQuoted_plain _ _ _ hr)
  · exact .inl (Quoted.doubleQuoted_plain _ _ _ hr)
  · exact .inl (Quoted.backQuoted_plain _ _ _ hr)
  · exact .inl (Number.rule_plain _ _ _ hr)
  · exact .inl (Sign.separator_plain _ _ _ hr)
  · exact .inl (Word.rule_plain _ _ _ hr)
  · exact .inl (Sign.operator_plain _ _ _ hr)
  · exact .inl (Sign.character_plain _ _ _ hr)

/-- A scan of program text stays inside, or it has read a closing tag. -/
theorem scan_inside_or_leaves {previous : Option Kind} {cs : List Char} {found : Scan}
    (hne : cs ≠ []) (h : scan previous cs = .ok found) :
    found.Inside ∨ found.turn = .leave ∧ ∃ text, found.lexemes = [⟨.tag .close, text⟩] := by
  rcases scan_cases hne h with hplain | hheredoc | hleaves
  · exact .inl hplain.inside
  · exact .inl (Heredoc.rule_staysInside _ _ _ hheredoc)
  · exact .inr hleaves

end Code

end Lexer

end Listing
