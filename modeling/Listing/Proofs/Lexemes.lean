import Listing.Proofs.Partition

/-!
# What the text of a lexeme can be

Two facts about every lexeme of a source, which the stages after reading rely on without checking
them: a newline stands only in a kind that a window may cut, and a whole string is a quote, a body
and the same quote, perhaps with the letter of a binary string before it (`Lexeme.Formed`).

Both are local to the rules but for two places. A character on its own is read by a rule that would
take a newline too; it never sees one, because spaces are tried before it (`Code.scan_of_isSpace`).
And the label that closes a heredoc was read steps before, so the contexts have to remember that
labels are names (`Context.Named`).
-/

namespace Listing

open Text

/-! ## Texts without newlines -/

namespace Text

theorem newline_notMem_takeWhile {p : Char → Bool} (h : p '\n' = false) (cs : List Char) :
    '\n' ∉ cs.takeWhile p := by
  intro hmem
  have hall : p '\n' = true := List.all_eq_true.1 List.all_takeWhile _ hmem
  simp [h] at hall

theorem newline_notMem_of_lower {cs : List Char} (h : '\n' ∉ lower cs) : '\n' ∉ cs := by
  intro hmem
  have : Char.toLower '\n' ∈ lower cs := List.mem_map_of_mem hmem
  exact h this

/-- A character whose small form is no letter is that character. -/
theorem eq_of_toLower {c a : Char} (h : c.toLower = a) (ha : a.toNat < 97) : c = a := by
  delta Char.toLower at h
  split at h
  · next hc =>
    have hval : a.val = c.val + ('a'.val - 'A'.val) := by rw [← h]
    have hnat : a.toNat = c.toNat + 32 := by
      have := congrArg UInt32.toNat hval
      have hlow : c.val.toNat ≤ 90 := UInt32.le_iff_toNat_le.1 hc.2
      have hoff : ('a'.val - 'A'.val).toNat = 32 := rfl
      rw [UInt32.toNat_add, hoff, Nat.mod_eq_of_lt (by omega)] at this
      exact this
    have : 65 ≤ c.toNat := UInt32.le_iff_toNat_le.1 hc.1
    omega
  · exact h

/-- A quote, a body and the quote again, perhaps with the letter of a binary string before them. -/
def IsString (cs : List Char) : Prop :=
  ∃ (mark body : List Char) (quote : Char),
    (mark = [] ∨ mark = ['b'] ∨ mark = ['B'])
      ∧ (quote = Lexer.Quoted.single ∨ quote = Lexer.Quoted.double)
      ∧ cs = mark ++ quote :: (body ++ [quote])

end Text

/-- Newlines stand only where a window may cut, and a whole string has its quotes. -/
structure Lexeme.Formed (lexeme : Lexeme) : Prop where
  splittable : '\n' ∈ lexeme.text → lexeme.kind.isSplittable = true
  string : lexeme.kind = .quoted .whole → IsString lexeme.text

namespace Lexeme.Formed

theorem of_splittable {kind : Kind} (text : List Char) (h : kind.isSplittable = true) :
    Formed ⟨kind, text⟩ := by
  refine ⟨fun _ => h, ?_⟩
  intro hk
  have hk' : kind = .quoted .whole := hk
  simp [hk', Kind.isSplittable] at h

theorem of_inline {kind : Kind} {text : List Char} (hk : kind ≠ .quoted .whole)
    (ht : '\n' ∉ text) : Formed ⟨kind, text⟩ :=
  ⟨fun h => absurd h ht, fun h => absurd h hk⟩

theorem of_mem_ofText {kind : Kind} {text : List Char} (h : kind.isSplittable = true) :
    ∀ lexeme ∈ Lexeme.ofText kind text, lexeme.Formed := by
  intro lexeme hmem
  unfold Lexeme.ofText at hmem
  split at hmem
  · simp at hmem
  · rw [List.mem_singleton] at hmem
    subst hmem
    exact of_splittable text h

/-- An answer of one lexeme. -/
theorem singleton {lexeme : Lexeme} (h : lexeme.Formed) : ∀ found ∈ [lexeme], found.Formed := by
  intro found hmem
  rw [List.mem_singleton] at hmem
  exact hmem ▸ h

end Lexeme.Formed

namespace Lexer

/-- A label is spelled like a name. -/
def Label.IsName (label : Label) : Prop :=
  isNameStart label.first = true ∧ ∀ c ∈ label.more, isNameChar c = true

theorem Label.IsName.inline {label : Label} (h : label.IsName) : '\n' ∉ label.chars := by
  unfold Label.chars
  rw [List.mem_cons, not_or]
  refine ⟨?_, fun hmem => ?_⟩
  · intro hfirst
    exact absurd h.1 (by rw [← hfirst]; decide)
  · exact absurd (h.2 _ hmem) (by decide)

theorem isNameStart_of_isBlank {c : Char} (h : isBlank c = true) : isNameStart c = false := by
  simp only [isBlank, Bool.or_eq_true, beq_iff_eq] at h
  rcases h with rfl | rfl <;> rfl

/-- Blanks before a label are told from it. -/
theorem Label.IsName.dropWhile_isBlank {label : Label} (h : label.IsName) {blanks : List Char}
    (hblanks : ∀ c ∈ blanks, isBlank c = true) (rest : List Char) :
    (blanks ++ (label.chars ++ rest)).dropWhile isBlank = label.chars ++ rest := by
  have hfirst : isBlank label.first ≠ true := by
    intro hblank
    have hstart := isNameStart_of_isBlank hblank
    rw [h.1] at hstart
    cases hstart
  rw [List.dropWhile_append_of_pos hblanks, Label.chars, List.cons_append,
    List.dropWhile_cons_of_neg hfirst]

/-- If it is a label that closes a body, it is a name. -/
def Closer.Named : Closer → Prop
  | .doubleQuote | .backtick => True
  | .label name => name.IsName

def Turn.Named : Turn → Prop
  | .stay | .leave => True
  | .enter closer => closer.Named

/-- The lexemes of a scan are formed, and the body it enters is closed by a name. -/
structure Scan.Formed (scan : Scan) : Prop where
  lexemes : ∀ lexeme ∈ scan.lexemes, lexeme.Formed
  turn : scan.turn.Named

theorem Scan.Formed.one {kind : Kind} {text rest : List Char} (h : Lexeme.Formed ⟨kind, text⟩) :
    (Scan.one kind text rest).Formed :=
  ⟨.singleton h, trivial⟩

def Rule.Forms (rule : Rule) : Prop :=
  ∀ previous cs scan, rule previous cs = some (.ok scan) → scan.Formed

/-! ## Spaces, comments and tags -/

namespace Trivia

theorem spaces_forms : Rule.Forms spaces := by
  intro previous cs scan h
  unfold spaces at h
  split at h
  · cases h
    exact Scan.Formed.one (.of_splittable _ rfl)
  · cases h

theorem closeTag_forms : Rule.Forms closeTag := by
  intro previous cs scan h
  unfold closeTag at h
  split at h
  · cases h
    exact ⟨.singleton (.of_splittable _ rfl), trivial⟩
  · split at h
    · cases h
      exact ⟨.singleton (.of_splittable _ rfl), trivial⟩
    · cases h

theorem lineComment_forms : Rule.Forms lineComment := by
  intro previous cs scan h
  unfold lineComment at h
  split at h
  · cases h
    exact Scan.Formed.one (.of_splittable _ rfl)
  · cases h

theorem blockComment_forms : Rule.Forms blockComment := by
  intro previous cs scan h
  unfold blockComment at h
  split at h
  · cases h
  · split at h
    · cases h
    · cases h
      refine Scan.Formed.one (.of_splittable _ ?_)
      split <;> rfl

end Trivia

/-! ## Numbers -/

namespace Number

theorem integerKind_eq (radix value : Nat) (cs : List Char) :
    integerKind radix value cs = .int ∨ integerKind radix value cs = .float := by
  fun_induction integerKind radix value cs <;> simp_all

theorem decimal_kind (cs : List Char) : (decimal cs).1 = .int ∨ (decimal cs).1 = .float := by
  simp only [decimal]
  split
  · unfold wholeKind
    split <;> exact integerKind_eq _ _ _
  · exact .inr rfl

theorem based?_kind {cs : List Char} {number : Kind × List Char × List Char}
    (h : based? cs = some number) : number.1 = .int ∨ number.1 = .float := by
  unfold based? at h
  split at h
  · split at h
    · cases h
    · dsimp only at h
      split at h
      · cases h
      · cases h
        exact integerKind_eq _ _ _
  · cases h

/-- A number has one of two kinds. -/
theorem split_kind (cs : List Char) : (split cs).1 = .int ∨ (split cs).1 = .float := by
  unfold split
  cases hb : based? cs with
  | none => exact decimal_kind cs
  | some number => exact based?_kind hb

theorem ne_whole_of_kind {kind : Kind} (h : kind = .int ∨ kind = .float) :
    kind ≠ .quoted .whole := by
  rcases h with rfl | rfl <;> nofun

theorem isDigitOf_newline (radix : Nat) : isDigitOf radix '\n' = false := by
  simp [isDigitOf, digit?, show Char.isDigit '\n' = false from rfl,
    show Char.isAlpha '\n' = false from rfl]

theorem based?_formed {cs : List Char} {number : Kind × List Char × List Char}
    (h : based? cs = some number) : Lexeme.Formed ⟨number.1, number.2.1⟩ := by
  unfold based? at h
  split at h
  · next letter cs =>
    split at h
    · cases h
    · next radix hr =>
      dsimp only at h
      split at h
      · cases h
      · cases h
        refine .of_inline (ne_whole_of_kind (integerKind_eq _ _ _)) ?_
        have hletter : '\n' ≠ letter := by
          rintro rfl
          simp [radix?] at hr
        have hdigits := newline_notMem_takeWhile (isDigitOf_newline radix) cs
        simp [hletter, hdigits]
  · cases h

theorem fraction_inline (cs : List Char) : '\n' ∉ (fraction cs).1 := by
  unfold fraction
  split
  · simp [newline_notMem_takeWhile (p := isDigitOrGroup) rfl]
  · simp

theorem sign_inline (cs : List Char) : '\n' ∉ (sign cs).1 := by
  unfold sign
  split <;> simp

theorem exponent_inline (cs : List Char) : '\n' ∉ (exponent cs).1 := by
  cases cs with
  | nil => simp [exponent]
  | cons c cs =>
    simp only [exponent]
    split
    · next h =>
      have hc : '\n' ≠ c := by
        rintro rfl
        exact absurd h.1 (by decide)
      simp [hc, sign_inline, newline_notMem_takeWhile (p := isDigitOrGroup) rfl]
    · simp

theorem decimal_formed (cs : List Char) : Lexeme.Formed ⟨(decimal cs).1, (decimal cs).2.1⟩ := by
  refine .of_inline (ne_whole_of_kind (decimal_kind cs)) ?_
  simp [decimal, fraction_inline, exponent_inline,
    newline_notMem_takeWhile (p := isDigitOrGroup) rfl]

theorem rule_forms : Rule.Forms rule := by
  intro previous cs scan h
  unfold rule at h
  split at h
  · cases h
    refine Scan.Formed.one ?_
    unfold split
    cases hb : based? cs with
    | none => exact decimal_formed cs
    | some number => exact based?_formed hb
  · cases h

end Number

/-! ## Variables, casts, operators and punctuation -/

namespace Sign

theorem attribute_forms : Rule.Forms attribute_ := by
  intro previous cs scan h
  unfold attribute_ at h
  split at h
  · cases h
    exact Scan.Formed.one (.of_inline (by simp) (by simp))
  · cases h

theorem variable_forms : Rule.Forms variable_ := by
  intro previous cs scan h
  unfold variable_ at h
  split at h
  · split at h
    · cases h
      refine Scan.Formed.one (.of_inline (by simp) ?_)
      simp [newline_notMem_takeWhile (p := isNameChar) rfl]
    · cases h
  · cases h

theorem cast_forms : Rule.Forms cast := by
  intro previous cs scan h
  unfold cast at h
  split at h
  · dsimp only at h
    split at h
    · cases h
      refine Scan.Formed.one (.of_inline (by simp) ?_)
      simp [newline_notMem_takeWhile (p := isBlank) rfl,
        newline_notMem_takeWhile (p := Char.isAlpha) rfl]
    · cases h
  · cases h

theorem separator_forms : Rule.Forms separator := by
  intro previous cs scan h
  unfold separator at h
  split at h
  · cases h
    exact Scan.Formed.one (.of_inline (by simp) (by simp))
  · cases h

theorem operators_inline :
    ∀ entry ∈ operators, '\n' ∉ entry.1 ∧ entry.2 ≠ .quoted .whole := by decide

theorem operator_forms : Rule.Forms operator := by
  intro previous cs scan h
  unfold operator at h
  split at h
  · next kind text rest e =>
    cases h
    obtain ⟨entry, hmem, he⟩ := List.exists_of_findSome?_eq_some e
    obtain ⟨after, -, hentry⟩ := Option.map_eq_some_iff.1 he
    cases hentry
    obtain ⟨hinline, hkind⟩ := operators_inline entry hmem
    exact Scan.Formed.one (.of_inline hkind hinline)
  · cases h

/-- A character on its own is no newline, as long as it is no space at all. -/
theorem character_formed {previous : Option Kind} {cs : List Char} {scan : Scan}
    (hs : headIs isSpace cs = false) (h : character previous cs = some (.ok scan)) :
    scan.Formed := by
  unfold character at h
  split at h
  · cases h
  · next c rest =>
    cases h
    have hc : '\n' ≠ c := by
      rintro rfl
      simp [isSpace] at hs
    refine Scan.Formed.one (.of_inline ?_ (by simpa using hc))
    split <;> simp

end Sign

/-! ## Words -/

namespace Word

theorem table_ne_whole : ∀ entry ∈ table, entry.2 ≠ .quoted .whole := by decide

/-- A word is a name, or has its kind from the table. -/
theorem kindAfter_cases (previous : Option Kind) (word : List Char) :
    kindAfter previous word = .name ∨ ∃ entry ∈ table, entry.2 = kindAfter previous word := by
  unfold kindAfter
  split
  · exact .inl rfl
  · split
    · exact .inl rfl
    · cases hr : reserved? word with
      | none => exact .inl rfl
      | some kind =>
        obtain ⟨before, after, htable, -⟩ := List.lookup_eq_some_iff.1 hr
        refine .inr ⟨(String.ofList (lower word), kind), ?_, rfl⟩
        rw [htable]
        simp

theorem kindAfter_ne_whole (previous : Option Kind) (word : List Char) :
    kindAfter previous word ≠ .quoted .whole := by
  rcases kindAfter_cases previous word with h | ⟨entry, hmem, h⟩
  · rw [h]
    nofun
  · rw [← h]
    exact table_ne_whole entry hmem

theorem from?_inline {cs tail rest : List Char} (h : from? cs = some (tail, rest)) :
    '\n' ∉ tail := by
  unfold from? at h
  split at h
  · split at h
    · next word after e =>
      split at h
      · cases h
      · cases h
        have hword : '\n' ∉ word :=
          newline_notMem_of_lower (by rw [(stripAnyCase?_eq_some e).2]; decide)
        simp [hword, newline_notMem_takeWhile (p := isBlank) rfl]
    · cases h
  · cases h

theorem rule_forms : Rule.Forms rule := by
  intro previous cs scan h
  unfold rule at h
  split at h
  · have hword : '\n' ∉ cs.takeWhile isNameChar := newline_notMem_takeWhile rfl cs
    dsimp only at h
    split at h
    · split at h
      · next tail rest e =>
        cases h
        exact Scan.Formed.one (.of_inline (by simp) (by simp [hword, from?_inline e]))
      · cases h
        exact Scan.Formed.one (.of_inline (by simp) hword)
    · cases h
      refine Scan.Formed.one (.of_inline ?_ hword)
      split <;> simp
    · cases h
      exact Scan.Formed.one (.of_inline (kindAfter_ne_whole _ _) hword)
  · cases h

end Word

/-! ## Strings -/

namespace Quoted

theorem opening?_shape {quote : Char} {cs opening rest : List Char}
    (h : opening? quote cs = some (opening, rest)) :
    ∃ mark, (mark = [] ∨ mark = ['b'] ∨ mark = ['B']) ∧ opening = mark ++ [quote] := by
  unfold opening? at h
  split at h
  · cases h
  · next c cs =>
    split at h
    · next hq =>
      cases h
      exact ⟨[], .inl rfl, by simp [hq]⟩
    · split at h
      · next hb =>
        split at h
        · cases h
        · split at h
          · next hq =>
            cases h
            refine ⟨[c], ?_, by simp [hq]⟩
            rcases hb with rfl | rfl
            · exact .inr (.inl rfl)
            · exact .inr (.inr rfl)
          · cases h
      · cases h

theorem plain_formed {quote : Char} (hq : quote = single ∨ quote = double)
    {cs opening inside : List Char} (h : opening? quote cs = some (opening, inside))
    (body : List Char) : ∀ lexeme ∈ plain opening body quote, lexeme.Formed := by
  obtain ⟨mark, hmark, rfl⟩ := opening?_shape h
  have hquote : '\n' ≠ quote := by rcases hq with rfl | rfl <;> decide
  have hopen : '\n' ∉ mark ++ [quote] := by
    rcases hmark with rfl | rfl | rfl <;> simp [hquote]
  intro lexeme hmem
  unfold plain at hmem
  split at hmem
  · simp only [List.mem_cons, List.not_mem_nil, or_false] at hmem
    rcases hmem with rfl | rfl | rfl
    · exact .of_inline (by simp) hopen
    · exact .of_splittable _ rfl
    · exact .of_inline (by simp) (by simpa using hquote)
  · next hbody =>
    rw [List.mem_singleton] at hmem
    subst hmem
    refine ⟨fun hmem => absurd hmem ?_, fun _ => ⟨mark, body, quote, hmark, hq, by simp⟩⟩
    simp only [List.mem_append, not_or] at hopen ⊢
    exact ⟨⟨hopen, hbody⟩, hopen.2⟩

theorem singleQuoted_forms : Rule.Forms singleQuoted := by
  intro previous cs scan h
  unfold singleQuoted at h
  split at h
  · cases h
  · next opening inside ho =>
    split at h
    · cases h
    · cases h
      exact ⟨plain_formed (.inl rfl) ho _, trivial⟩

theorem doubleQuoted_forms : Rule.Forms doubleQuoted := by
  intro previous cs scan h
  unfold doubleQuoted at h
  split at h
  · cases h
  · next opening inside ho =>
    split at h
    · cases h
    · split at h
      · cases h
        obtain ⟨mark, hmark, rfl⟩ := opening?_shape ho
        refine ⟨.singleton (.of_inline (by simp) ?_), trivial⟩
        rcases hmark with rfl | rfl | rfl <;> decide
      · cases h
        exact ⟨plain_formed (.inr rfl) ho _, trivial⟩

theorem backQuoted_forms : Rule.Forms backQuoted := by
  intro previous cs scan h
  unfold backQuoted at h
  split at h
  · cases h
  · next inside _ =>
    cases h
    exact ⟨.singleton (.of_inline (by simp) (by decide)), trivial⟩

end Quoted

/-! ## Heredocs -/

namespace Heredoc

theorem labelLine?_isName {quotes cs text rest : List Char} {label : Label}
    (h : labelLine? quotes cs = some (label, text, rest)) : label.IsName := by
  unfold labelLine? at h
  split at h
  · next c name e =>
    split at h
    · next hc =>
      obtain ⟨after, -, he⟩ := Option.map_eq_some_iff.1 h
      cases he
      exact ⟨hc, List.all_eq_true.1 List.all_takeWhile⟩
    · cases h
  · cases h

theorem header?_isName {cs : List Char} {header : Header} (h : header? cs = some header) :
    header.label.IsName := by
  unfold header? at h
  split at h
  · cases h
  · dsimp only at h
    split at h
    · next hl =>
      cases h
      exact labelLine?_isName hl
    · split at h
      · next hl =>
        cases h
        exact labelLine?_isName hl
      · split at h
        · next hl =>
          cases h
          exact labelLine?_isName hl
        · cases h

theorem closeAt?_inline {label : Label} (hl : label.IsName) {cs text rest : List Char}
    (h : closeAt? label cs = some (text, rest)) : '\n' ∉ text := by
  unfold closeAt? at h
  split at h
  · cases h
  · split at h
    · cases h
    · cases h
      simp [hl.inline, newline_notMem_takeWhile (p := isBlank) rfl]

theorem rule_forms : Rule.Forms rule := by
  intro previous cs scan h
  unfold rule at h
  split at h
  · cases h
  · next header e =>
    have hname := header?_isName e
    split at h
    · split at h
      · cases h
      · split at h
        · cases h
        · next body line hu _ text rest hc =>
          cases h
          refine ⟨?_, trivial⟩
          intro lexeme hmem
          simp only [List.cons_append, List.mem_cons, List.mem_append, List.not_mem_nil,
            or_false] at hmem
          rcases hmem with rfl | hmem | rfl
          · exact .of_splittable _ rfl
          · exact .of_mem_ofText rfl lexeme hmem
          · exact .of_inline (by simp) (closeAt?_inline hname hc)
    · cases h
      exact ⟨.singleton (.of_splittable _ rfl), hname⟩

end Heredoc

/-! ## Bodies of strings -/

namespace Body

theorem key?_formed {cs : List Char} {key : Kind × List Char × List Char} (h : key? cs = some key) :
    Lexeme.Formed ⟨key.1, key.2.1⟩ := by
  have hdigits := newline_notMem_takeWhile (p := Char.isDigit) rfl
  have hname := newline_notMem_takeWhile (p := isNameChar) rfl
  unfold key? at h
  split at h
  · cases h
  · next c cs =>
    split at h
    · next hc =>
      split at h
      · cases h
        exact .of_inline (by simp) (by simp [hc, hdigits])
      · cases h
    · split at h
      · next hc =>
        cases h
        have hne : '\n' ≠ c := by
          rintro rfl
          exact absurd hc (by decide)
        exact .of_inline (by simp) (by simp [hne, hdigits])
      · split at h
        · next hc =>
          split at h
          · cases h
            exact .of_inline (by simp) (by simp [hc, hname])
          · cases h
        · split at h
          · next hc =>
            cases h
            have hne : '\n' ≠ c := by
              rintro rfl
              exact absurd hc (by decide)
            exact .of_inline (by simp) (by simp [hne, hname])
          · cases h

theorem offset?_formed {cs rest : List Char} {lexemes : List Lexeme}
    (h : offset? cs = some (lexemes, rest)) : ∀ lexeme ∈ lexemes, lexeme.Formed := by
  unfold offset? at h
  split at h
  · cases h
  · split at h
    · cases h
    · next kind text after hk =>
      obtain ⟨last, -, he⟩ := Option.map_eq_some_iff.1 h
      cases he
      intro lexeme hmem
      simp only [List.mem_cons, List.not_mem_nil, or_false] at hmem
      rcases hmem with rfl | rfl | rfl
      · exact .of_inline (by simp) (by simp)
      · exact key?_formed hk
      · exact .of_inline (by simp) (by simp)

theorem member?_formed {kind : Grammar} {arrow cs rest : List Char} {lexemes : List Lexeme}
    (ha : '\n' ∉ arrow) (h : member? kind arrow cs = some (lexemes, rest)) :
    ∀ lexeme ∈ lexemes, lexeme.Formed := by
  unfold member? at h
  split at h
  · cases h
  · split at h
    · cases h
      intro lexeme hmem
      simp only [List.mem_cons, List.not_mem_nil, or_false] at hmem
      rcases hmem with rfl | rfl
      · exact .of_inline (by simp) ha
      · exact .of_inline (by simp) (newline_notMem_takeWhile rfl _)
    · cases h

theorem access_formed (cs : List Char) : ∀ lexeme ∈ (access cs).1, lexeme.Formed := by
  unfold access
  cases h1 : offset? cs with
  | some found => simpa using offset?_formed h1
  | none =>
    cases h2 : member? .arrow ['-', '>'] cs with
    | some found => simpa using member?_formed (by simp) h2
    | none =>
      cases h3 : member? .nullsafeArrow ['?', '-', '>'] cs with
      | some found => simpa using member?_formed (by simp) h3
      | none => simp

theorem braced_formed (cs : List Char) : ∀ lexeme ∈ (braced cs).1, lexeme.Formed := by
  unfold braced
  split
  · exact .singleton (.of_inline (by simp) (newline_notMem_takeWhile rfl _))
  · simp

theorem interpolation?_formed {cs : List Char} {event : Event}
    (h : interpolation? cs = some event) : ∀ lexeme ∈ event.lexemes, lexeme.Formed := by
  unfold interpolation? at h
  split at h
  · next c d cs =>
    split at h
    · next hc =>
      split at h
      · cases h
        intro lexeme hmem
        rcases List.mem_cons.1 hmem with rfl | hmem
        · refine .of_inline (by simp) ?_
          simp [hc, newline_notMem_takeWhile (p := isNameChar) rfl]
        · exact access_formed _ lexeme hmem
      · split at h
        · next hd =>
          cases h
          intro lexeme hmem
          rcases List.mem_cons.1 hmem with rfl | hmem
          · exact .of_inline (by simp) (by simp [hc, hd])
          · exact braced_formed _ lexeme hmem
        · cases h
    · split at h
      · next hc =>
        cases h
        exact .singleton (.of_inline (by simp) (by simp [hc.1]))
      · cases h
  · cases h

theorem close?_formed {closer : Closer} (hn : closer.Named) {fresh : Bool} {cs : List Char}
    {event : Event} (h : close? closer fresh cs = some event) :
    ∀ lexeme ∈ event.lexemes, lexeme.Formed := by
  unfold close? at h
  split at h
  · obtain ⟨rest, -, rfl⟩ := Option.map_eq_some_iff.1 h
    exact .singleton (.of_inline (by simp) (by decide))
  · obtain ⟨rest, -, rfl⟩ := Option.map_eq_some_iff.1 h
    exact .singleton (.of_inline (by simp) (by decide))
  · split at h
    · obtain ⟨found, hf, rfl⟩ := Option.map_eq_some_iff.1 h
      exact .singleton (.of_inline (by simp) (Heredoc.closeAt?_inline hn hf))
    · cases h

/-- The event that ends a stretch of literal text is what is next behind that text. -/
theorem exists_onward_of_seek {closer : Closer} {fresh : Bool} {cs text : List Char} {event : Event}
    (h : seek closer fresh cs = some (text, event)) :
    ∃ onward fresh, text ++ onward = cs ∧ event? closer fresh onward = some event := by
  fun_induction seek closer fresh cs generalizing text with
  | case1 => cases h
  | case2 fresh c cs found he =>
    cases h
    exact ⟨c :: cs, fresh, rfl, he⟩
  | case3 => cases h
  | case4 fresh d ds he ih =>
    obtain ⟨found, hf, hp⟩ := Option.map_eq_some_iff.1 h
    cases hp
    obtain ⟨onward, fresh, happ, he⟩ := ih hf
    exact ⟨onward, fresh, by rw [← happ]; rfl, he⟩
  | case5 fresh c cs he hb ih =>
    obtain ⟨found, hf, hp⟩ := Option.map_eq_some_iff.1 h
    cases hp
    obtain ⟨onward, fresh, happ, he⟩ := ih hf
    exact ⟨onward, fresh, by rw [← happ]; rfl, he⟩

/-- The ways an interpolation begins. -/
theorem interpolation?_cases {cs : List Char} {event : Event}
    (h : interpolation? cs = some event) :
    (∃ d ds, cs = '$' :: d :: ds
        ∧ event = .splice (⟨.variable_, '$' :: (d :: ds).takeWhile isNameChar⟩
          :: (access ((d :: ds).dropWhile isNameChar)).1)
          (access ((d :: ds).dropWhile isNameChar)).2)
      ∨ (∃ ds, cs = '$' :: '\x7b' :: ds
        ∧ event = .hole (⟨.grammar .dollarCurlyOpen, ['$', '\x7b']⟩ :: (braced ds).1)
          (braced ds).2)
      ∨ ∃ ds, cs = '\x7b' :: '$' :: ds
        ∧ event = .hole [⟨.grammar .curlyOpen, ['\x7b']⟩] ('$' :: ds) := by
  unfold interpolation? at h
  split at h
  · next c d ds =>
    split at h
    · next hc =>
      subst hc
      split at h
      · cases h
        exact .inl ⟨d, ds, rfl, rfl⟩
      · split at h
        · next hd =>
          subst hd
          cases h
          exact .inr (.inl ⟨ds, rfl, rfl⟩)
        · cases h
    · split at h
      · next hcd =>
        obtain ⟨rfl, rfl⟩ := hcd
        cases h
        exact .inr (.inr ⟨ds, rfl, rfl⟩)
      · cases h
  · cases h

theorem interpolation?_of_event? {closer : Closer} {fresh : Bool} {cs : List Char} {event : Event}
    (h : event? closer fresh cs = some event)
    (hclose : ∀ lexemes rest, event ≠ .close lexemes rest) :
    interpolation? cs = some event := by
  rcases Option.or_eq_some_iff.1 h with h | ⟨-, h⟩
  · unfold close? at h
    split at h
    · obtain ⟨rest, -, rfl⟩ := Option.map_eq_some_iff.1 h
      exact absurd rfl (hclose _ _)
    · obtain ⟨rest, -, rfl⟩ := Option.map_eq_some_iff.1 h
      exact absurd rfl (hclose _ _)
    · split at h
      · obtain ⟨found, -, rfl⟩ := Option.map_eq_some_iff.1 h
        exact absurd rfl (hclose _ _)
      · cases h
  · exact h

theorem close?_of_event? {closer : Closer} {fresh : Bool} {cs rest : List Char}
    {lexemes : List Lexeme} (h : event? closer fresh cs = some (.close lexemes rest)) :
    close? closer fresh cs = some (.close lexemes rest) := by
  rcases Option.or_eq_some_iff.1 h with h | ⟨-, h⟩
  · exact h
  · rcases interpolation?_cases h with ⟨d, ds, -, he⟩ | ⟨ds, -, he⟩ | ⟨ds, -, he⟩ <;> cases he

theorem seek_formed {closer : Closer} (hn : closer.Named) {fresh : Bool} {cs text : List Char}
    {event : Event} (h : seek closer fresh cs = some (text, event)) :
    ∀ lexeme ∈ event.lexemes, lexeme.Formed := by
  obtain ⟨onward, fresh', -, he⟩ := exists_onward_of_seek h
  rcases Option.or_eq_some_iff.1 he with he | ⟨-, he⟩
  · exact close?_formed hn he
  · exact interpolation?_formed he

end Body

/-! ## Program text -/

namespace Code

/-- Spaces are tried before anything that could take one by itself. -/
theorem scan_of_isSpace (previous : Option Kind) {cs : List Char} (h : headIs isSpace cs = true) :
    scan previous cs
      = .ok (.one .whitespace (cs.takeWhile isSpace) (cs.dropWhile isSpace)) := by
  cases cs with
  | nil => simp at h
  | cons c cs =>
    have hlt : '<' ≠ c := by
      rintro rfl
      exact absurd h (by simp [isSpace])
    have hparen : c ≠ '(' := by
      rintro rfl
      exact absurd h (by simp [isSpace])
    have hheredoc : Heredoc.rule previous (c :: cs) = none := by
      simp [Heredoc.rule, Heredoc.header?, strip?, hlt]
    have hcast : Sign.cast previous (c :: cs) = none := by
      unfold Sign.cast
      split
      · next heq => exact absurd (List.cons.inj heq).1 hparen
      · rfl
    simp [scan, rules, hheredoc, hcast, Trivia.spaces, h]

theorem scan_formed {previous : Option Kind} {cs : List Char} {found : Scan} (hne : cs ≠ [])
    (h : scan previous cs = .ok found) : found.Formed := by
  cases hs : headIs isSpace cs with
  | true =>
    rw [scan_of_isSpace previous hs] at h
    cases h
    exact .one (.of_splittable _ rfl)
  | false =>
    obtain ⟨rule, hmem, hr⟩ := exists_rule previous hne
    rw [h] at hr
    simp only [rules, List.mem_cons, List.not_mem_nil, or_false] at hmem
    rcases hmem with rfl | rfl | rfl | rfl | rfl | rfl | rfl | rfl | rfl | rfl | rfl | rfl | rfl
      | rfl | rfl | rfl
    · exact Heredoc.rule_forms _ _ _ hr
    · exact Sign.cast_forms _ _ _ hr
    · exact Trivia.spaces_forms _ _ _ hr
    · exact Trivia.closeTag_forms _ _ _ hr
    · exact Sign.attribute_forms _ _ _ hr
    · exact Trivia.lineComment_forms _ _ _ hr
    · exact Trivia.blockComment_forms _ _ _ hr
    · exact Sign.variable_forms _ _ _ hr
    · exact Quoted.singleQuoted_forms _ _ _ hr
    · exact Quoted.doubleQuoted_forms _ _ _ hr
    · exact Quoted.backQuoted_forms _ _ _ hr
    · exact Number.rule_forms _ _ _ hr
    · exact Sign.separator_forms _ _ _ hr
    · exact Word.rule_forms _ _ _ hr
    · exact Sign.operator_forms _ _ _ hr
    · exact Sign.character_formed hs hr

end Code

/-! ## Contexts -/

namespace Markup

theorem openTag?_formed {cs rest : List Char} {tag : Lexeme} (h : openTag? cs = some (tag, rest)) :
    tag.Formed := by
  unfold openTag? at h
  split at h
  · cases h
    exact .of_inline (by simp) (by simp)
  · split at h
    · cases h
    · cases h
      exact .of_splittable _ rfl
    · split at h
      · cases h
        exact .of_splittable _ rfl
      · cases h

end Markup

namespace Context

/-- The labels that close the bodies around a place are names. -/
def Named : Context → Prop
  | .html | .code | .halting | .data => True
  | .body closer _ _ outer => closer.Named ∧ outer.Named
  | .hole _ _ outer => outer.Named

theorem Named.afterTag {context next : Context} (h : context.afterTag = .ok next) :
    next.Named := by
  unfold Context.afterTag at h
  split at h
  · cases h
  · cases h
    trivial
  · cases h
    trivial

theorem Named.afterLexeme {context : Context} (h : context.Named) (last : Lexeme) :
    (context.afterLexeme last).Named := by
  unfold Context.afterLexeme
  split
  · split <;> trivial
  · split <;> trivial
  · split
    · exact h
    · split
      · split <;> exact h
      · exact h
  · exact h

theorem Named.afterScan {context next : Context} {line : Nat} {scan : Scan} (h : context.Named)
    (hs : scan.turn.Named) (hn : context.afterScan line scan = .ok next) : next.Named := by
  obtain ⟨-, htag⟩ | ⟨closer, hturn, rfl⟩ | ⟨-, last, -, rfl⟩ | ⟨-, rfl⟩ := afterScan_cases hn
  · exact Named.afterTag htag
  · rw [hturn] at hs
    exact ⟨hs, h⟩
  · exact h.afterLexeme last
  · exact h

theorem stepCode_formed {context : Context} (hc : context.Named) {line : Nat}
    {previous : Option Kind} {cs : List Char} {next : Step} (hne : cs ≠ [])
    (h : stepCode context line previous cs = .ok next) :
    next.context.Named ∧ ∀ lexeme ∈ next.lexemes, lexeme.Formed := by
  obtain ⟨scan, after, hscan, hafter, rfl⟩ := exists_scan_of_stepCode h
  have hformed := Code.scan_formed hne hscan
  exact ⟨hc.afterScan hformed.turn hafter, hformed.lexemes⟩

theorem stepHtml_formed (cs : List Char) :
    (stepHtml cs).context.Named ∧ ∀ lexeme ∈ (stepHtml cs).lexemes, lexeme.Formed := by
  unfold stepHtml
  split
  · next tag rest htag =>
    refine ⟨trivial, ?_⟩
    intro lexeme hmem
    rcases List.mem_append.1 hmem with hmem | hmem
    · exact .of_mem_ofText rfl lexeme hmem
    · exact .singleton (Markup.openTag?_formed htag) lexeme hmem
  · exact ⟨trivial, .singleton (.of_splittable _ rfl)⟩

theorem stepBody_formed {closer : Closer} {outer : Context} (hc : closer.Named)
    (ho : outer.Named) {opened line : Nat} {fresh : Bool} {cs : List Char} {next : Step}
    (h : stepBody closer opened fresh outer line cs = .ok next) :
    next.context.Named ∧ ∀ lexeme ∈ next.lexemes, lexeme.Formed := by
  obtain ⟨text, event, hseek, rfl⟩ := exists_seek_of_stepBody h
  refine ⟨?_, ?_⟩
  · cases event with
    | close => exact ho
    | splice => exact ⟨hc, ho⟩
    | hole => exact ⟨hc, ho⟩
  · intro lexeme hmem
    rcases List.mem_append.1 hmem with hmem | hmem
    · exact .of_mem_ofText rfl lexeme hmem
    · exact Body.seek_formed hc hseek lexeme hmem

/-- What one step keeps: labels stay names, and the lexemes read are formed. -/
theorem step_formed {context : Context} (hc : context.Named) {line : Nat}
    {previous : Option Kind} {cs : List Char} {next : Step} (hne : cs ≠ [])
    (h : context.step line previous cs = .ok next) :
    next.context.Named ∧ ∀ lexeme ∈ next.lexemes, lexeme.Formed := by
  unfold step at h
  split at h
  · cases h
    exact stepHtml_formed cs
  · cases h
    exact ⟨trivial, .singleton (.of_splittable _ rfl)⟩
  · exact stepCode_formed hc hne h
  · exact stepCode_formed hc hne h
  · exact stepCode_formed hc hne h
  · exact stepBody_formed hc.1 hc.2 h

end Context

/-- What a whole reading keeps. -/
theorem Reads.formed {state : State} {lexemes : List Lexeme} (h : Reads state lexemes)
    (hc : state.context.Named) : ∀ lexeme ∈ lexemes, lexeme.Formed := by
  induction h with
  | done => simp
  | step hne hstep _ ih =>
    obtain ⟨hnext, hlexemes⟩ := Context.step_formed hc hne hstep
    intro lexeme hmem
    rcases List.mem_append.1 hmem with hmem | hmem
    · exact hlexemes lexeme hmem
    · exact ih hnext lexeme hmem

end Lexer

/-! ## Tokens -/

theorem formed_of_mem_tokenize {source : String} {tokens : List Token}
    (h : tokenize source = .ok tokens) {token : Token} (hmem : token ∈ tokens) :
    Lexeme.Formed ⟨token.kind, token.text.toList⟩ := by
  obtain ⟨lexemes, hreads, rfl⟩ := Lexer.reads_of_tokenize h
  obtain ⟨lexeme, hlexeme, hkind, htext⟩ := Token.exists_lexeme_of_mem_place hmem
  rw [hkind, htext]
  exact hreads.formed trivial lexeme hlexeme

/-- **Newlines stand only where a window may cut**: a token of a source that holds one has a kind
that may be split. -/
theorem tokenize_newline_splittable {source : String} {tokens : List Token}
    (h : tokenize source = .ok tokens) :
    ∀ token ∈ tokens, '\n' ∈ token.text.toList → token.kind.isSplittable = true :=
  fun _ hmem => (formed_of_mem_tokenize h hmem).splittable

/-- A string and a comment that run over lines: the string is cut into its quotes and its text. -/
theorem tokenize_newline_splittable_string :
    ∃ tokens, tokenize "<?php 'a\nb'; /*\n*/" = .ok tokens
      ∧ tokens.filter (fun token => token.text.toList.contains '\n')
        = [⟨.literal, "a\nb", 1⟩, ⟨.comment, "/*\n*/", 2⟩]
      ∧ ∀ token ∈ tokens, '\n' ∈ token.text.toList → token.kind.isSplittable = true := by
  have h : (tokenize "<?php 'a\nb'; /*\n*/").toOption = some
      [⟨.tag .open_, "<?php ", 1⟩, ⟨.punct, "'", 1⟩, ⟨.literal, "a\nb", 1⟩, ⟨.punct, "'", 2⟩,
        ⟨.punct, ";", 2⟩, ⟨.whitespace, " ", 2⟩, ⟨.comment, "/*\n*/", 2⟩] := by
    decide +kernel
  have h := Lexer.tokenize_of_toOption h
  exact ⟨_, h, by decide, tokenize_newline_splittable h⟩

end Listing
