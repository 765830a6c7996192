import Listing.Proofs.Bytes.Bodies

/-!
# Program text and the text around it by their bytes

The reader has a list of rules, of which the first that does not pass decides; the scanner has a
ladder of tests on one or two bytes. A test tells whether the rule on its rung passes, and so the
two come to the same rule (`lexToken_eq`).

Outside the program the scanner looks for the two bytes that every opening tag begins with, and
goes on behind them when it is not a tag (`lexInlineHtml_eq`).
-/

namespace Listing.Bytes

open Text Lexer

variable {src : List UInt8} {cursor : Cursor} {cs text rest : List Char} {i : Nat}
variable {encapsed : Terminator → Nat → Cursor → Checked Cursor}

/-! ## When a rule passes

The scanner tests one byte or two before it calls a function; the rule of the same token passes
where the test fails. -/

section Passes

variable {previous : Option Kind} {c : Char}

theorem strip?_pair_eq_none {a b : Char} (h : (c == a && headIs (· == b) cs) = false) :
    strip? [a, b] (c :: cs) = none := by
  rw [← isSome_strip?_pair, Option.isSome_eq_false_iff, Option.isNone_iff_eq_none] at h
  exact h

theorem closeTag_passes (h : (c == '?' && headIs (· == '>') cs) = false) :
    Trivia.closeTag previous (c :: cs) = none := by
  have hlong : strip? ['?', '>', '\n'] (c :: cs) = none := by
    cases hs : strip? ['?', '>', '\n'] (c :: cs) with
    | none => rfl
    | some rest =>
      cases strip?_eq_some hs
      cases h
  rw [Trivia.closeTag, hlong, strip?_pair_eq_none h]

theorem attribute_passes (h : (c == '#' && headIs (· == '[') cs) = false) :
    Sign.attribute_ previous (c :: cs) = none := by
  rw [Sign.attribute_, strip?_pair_eq_none h]

theorem opensLine_cons (c : Char) (cs : List Char) :
    Trivia.opensLine (c :: cs) = (c == '#' || (c == '/' && headIs (· == '/') cs)) := by
  by_cases hash : c = '#'
  · subst hash
    rfl
  · by_cases hslash : c = '/'
    · subst hslash
      cases cs with
      | nil => rfl
      | cons d cs =>
        by_cases hd : d = '/'
        · subst hd
          rfl
        · simp [Trivia.opensLine, hd]
    · simp [Trivia.opensLine, hash, hslash]

theorem blockComment_passes (h : (c == '/' && headIs (· == '*') cs) = false) :
    Trivia.blockComment previous (c :: cs) = none := by
  rw [Trivia.blockComment, strip?_pair_eq_none h]

theorem variable_passes (h : (c == '$' && headIs isNameStart cs) = false) :
    Sign.variable_ previous (c :: cs) = none := by
  unfold Sign.variable_
  split
  · next name heq =>
    cases heq
    rw [beq_self_eq_true, Bool.true_and] at h
    rw [if_neg (by simp [h])]
  · rfl

/-- An opening quote, with the letter of a binary string before it or without. -/
theorem opening?_cons (quote c : Char) (cs : List Char) :
    (Quoted.opening? quote (c :: cs)).isSome
      = (c == quote || ((c == 'b' || c == 'B') && headIs (· == quote) cs)) := by
  by_cases hq : c = quote
  · cases cs <;> simp [Quoted.opening?, hq]
  · cases cs with
    | nil => simp [Quoted.opening?, hq]
    | cons d cs =>
      have hb : (c == 'b' || c == 'B') = decide (c = 'b' ∨ c = 'B') := by
        rw [Bool.decide_or]
        rfl
      rw [hb, beq_false_of_ne hq, headIs_cons]
      by_cases hd : d = quote
      · by_cases hc : c = 'b' ∨ c = 'B' <;> simp [Quoted.opening?, hq, hd, hc]
      · simp [Quoted.opening?, hq, hd]

theorem opening?_eq_none {quote : Char} (hq : (c == quote) = false)
    (hb : ((c == 'b' || c == 'B') && headIs (· == quote) cs) = false) :
    Quoted.opening? quote (c :: cs) = none := by
  have h := opening?_cons quote c cs
  rw [hq, hb, Bool.false_or, Option.isSome_eq_false_iff, Option.isNone_iff_eq_none] at h
  exact h

theorem backQuoted_passes (h : (c == Quoted.back) = false) :
    Quoted.backQuoted previous (c :: cs) = none := by
  have hc : c ≠ Quoted.back := by simpa using h
  rw [Quoted.backQuoted, strip?, if_neg (Ne.symm hc)]

theorem separator_passes (h : (c == '\\') = false) : Sign.separator previous (c :: cs) = none := by
  unfold Sign.separator
  split
  · next heq =>
    cases heq
    cases h
  · rfl

end Passes

section Dispatch

variable {c : Char}

theorem header_or_none (h : At src cursor.pos (c :: cs)) :
    (if c == '<' then headerAt src cursor.pos else .ok none)
      = .ok ((Heredoc.header? (c :: cs)).map fun header =>
        ⟨encode header.label.chars, header.raw, cursor.pos + size header.text⟩) := by
  by_cases hc : c = '<'
  · rw [if_pos (by simpa using hc), headerAt_eq h]
  · have hnone : Heredoc.header? (c :: cs) = none := by
      rw [Heredoc.header?, strip?, if_neg (Ne.symm hc)]
    rw [if_neg (by simpa using hc), hnone]
    rfl

theorem cast_or_none (h : At src cursor.pos (c :: cs)) (previous : Option Kind) :
    (Sign.cast previous (c :: cs) = none
        ∧ (if c == '(' then castAt src cursor.pos else .ok none) = .ok none)
      ∨ ∃ kind text rest, Sign.cast previous (c :: cs) = some (.ok (.one kind text rest))
        ∧ (if c == '(' then castAt src cursor.pos else .ok none)
          = .ok (some (kind, cursor.pos + size text)) := by
  by_cases hc : c = '('
  · subst hc
    exact castAt_cases h previous
  · refine .inl ⟨?_, if_neg (by simpa using hc)⟩
    unfold Sign.cast
    split
    · next heq => exact absurd (List.cons.inj heq).1 hc
    · rfl

/-- The answer of the first of some rules that does not pass. -/
def firstOf (rules : List Rule) (previous : Option Kind) (cs : List Char) :
    Except Unterminated Scan :=
  (rules.findSome? fun rule => rule previous cs).getD (.ok { lexemes := [], rest := cs })

section FirstOf

variable {rule : Rule} {rules : List Rule} {previous : Option Kind}

theorem firstOf_cons_of_none (h : rule previous cs = none) :
    firstOf (rule :: rules) previous cs = firstOf rules previous cs := by
  rw [firstOf, List.findSome?_cons, h]
  rfl

theorem firstOf_cons_of_some {answer : Except Unterminated Scan}
    (h : rule previous cs = some answer) : firstOf (rule :: rules) previous cs = answer := by
  rw [firstOf, List.findSome?_cons, h]
  rfl

theorem Agrees.eq_follow {result : Checked Cursor}
    (h : Agrees src encapsed rule cursor cs result) :
    result = follow src encapsed cursor (firstOf (rule :: rules) cursor.previous cs) := by
  obtain ⟨answer, hrule, hresult⟩ := h
  rw [firstOf_cons_of_some hrule, hresult]

/-- One rung of the ladder: the test that the scanner makes decides whether the rule passes. -/
theorem ite_eq_follow {test : Bool} {result others : Checked Cursor}
    (hpos : test = true → Agrees src encapsed rule cursor cs result)
    (hneg : test = false → rule cursor.previous cs = none)
    (hothers : test = false →
      others = follow src encapsed cursor (firstOf rules cursor.previous cs)) :
    (if test then result else others)
      = follow src encapsed cursor (firstOf (rule :: rules) cursor.previous cs) := by
  cases test with
  | true => exact (hpos rfl).eq_follow
  | false => rw [firstOf_cons_of_none (hneg rfl), ← hothers rfl]; rfl

end FirstOf

section Agreement

theorem spaces_agrees (h : At src cursor.pos cs) (hs : headIs isSpace cs = true) :
    Agrees src encapsed Trivia.spaces cursor cs
      (emit src .whitespace (scanWhile src cursor.pos isSpace) cursor) := by
  rw [h.emit_while Narrow.isSpace.uniform]
  exact ⟨.ok _, by rw [Trivia.spaces, if_pos hs], rfl⟩

theorem attribute_agrees (h : At src cursor.pos ('#' :: '[' :: rest)) :
    Agrees src encapsed Sign.attribute_ cursor ('#' :: '[' :: rest)
      (emit src (.grammar .attribute) (cursor.pos + 2) cursor) := by
  rw [At.emit ['#', '['] h (rfl : cursor.pos + 2 = _)]
  exact ⟨.ok _, rfl, rfl⟩

theorem lineComment_agrees (h : At src cursor.pos cs) (hs : Trivia.opensLine cs = true) :
    Agrees src encapsed Trivia.lineComment cursor cs (lexLineComment src cursor) := by
  rw [lexLineComment_eq h]
  exact ⟨.ok _, by rw [Trivia.lineComment, if_pos hs], rfl⟩

theorem variable_agrees {name : List Char} (h : At src cursor.pos ('$' :: name))
    (hs : headIs isNameStart name = true) :
    Agrees src encapsed Sign.variable_ cursor ('$' :: name)
      (emit src .variable_ (scanWhile src (cursor.pos + 1) isNameChar) cursor) := by
  rw [h.emit_cons_while (by decide) .isNameChar]
  exact ⟨.ok _, by rw [Sign.variable_, if_pos hs], rfl⟩

theorem singleQuoted_agrees {front inside : List Char}
    (h : At src cursor.pos (front ++ Quoted.single :: inside))
    (ho : Quoted.opening? Quoted.single (front ++ Quoted.single :: inside)
      = some (front ++ [Quoted.single], inside)) :
    Agrees src encapsed Quoted.singleQuoted cursor (front ++ Quoted.single :: inside)
      (lexSingleQuoted src (size front) cursor) := by
  rw [lexSingleQuoted_eq h, Agrees, Quoted.singleQuoted, ho]
  dsimp only
  cases Quoted.closingQuote? Quoted.single inside with
  | none => exact ⟨_, rfl, rfl⟩
  | some found => exact ⟨_, rfl, rfl⟩

theorem doubleQuoted_agrees {front inside : List Char}
    (h : At src cursor.pos (front ++ Quoted.double :: inside))
    (ho : Quoted.opening? Quoted.double (front ++ Quoted.double :: inside)
      = some (front ++ [Quoted.double], inside)) :
    Agrees src encapsed Quoted.doubleQuoted cursor (front ++ Quoted.double :: inside)
      (lexDoubleQuoted src encapsed (size front) cursor) := by
  rw [lexDoubleQuoted_eq h, Agrees, Quoted.doubleQuoted, ho]
  dsimp only
  cases Quoted.closingQuote? Quoted.double inside with
  | none => exact ⟨_, rfl, rfl⟩
  | some found =>
    dsimp only
    split
    · exact ⟨_, rfl, rfl⟩
    · exact ⟨_, rfl, rfl⟩

theorem backQuoted_agrees {inside : List Char} (h : At src cursor.pos (Quoted.back :: inside)) :
    Agrees src encapsed Quoted.backQuoted cursor (Quoted.back :: inside)
      (lexBacktick src encapsed cursor) := by
  rw [lexBacktick_eq h]
  exact ⟨_, rfl, rfl⟩

theorem number_agrees (h : At src cursor.pos (c :: cs)) (hs : Number.begins (c :: cs) = true) :
    Agrees src encapsed Number.rule cursor (c :: cs) (lexNumber src cursor) := by
  rw [lexNumber_eq h]
  exact ⟨.ok _, by rw [Number.rule, if_pos hs], rfl⟩

theorem separator_agrees (h : At src cursor.pos ('\\' :: rest)) :
    Agrees src encapsed Sign.separator cursor ('\\' :: rest)
      (emit src .separator (cursor.pos + 1) cursor) := by
  rw [At.emit ['\\'] h (rfl : cursor.pos + 1 = _)]
  exact ⟨.ok _, rfl, rfl⟩

theorem lexOperator_eq_follow (h : At src cursor.pos (c :: cs)) (hc : c.toNat < 0x80) :
    lexOperator src cursor
      = follow src encapsed cursor
        (firstOf [Sign.operator, Sign.character] cursor.previous (c :: cs)) := by
  rw [lexOperator_eq h hc]
  cases ho : Sign.operator? (c :: cs) with
  | some found =>
    have hrule : Sign.operator cursor.previous (c :: cs)
        = some (.ok (.one found.1 found.2.1 found.2.2)) := by
      rw [Sign.operator, ho]
    rw [firstOf_cons_of_some hrule]
    rfl
  | none =>
    have hrule : Sign.operator cursor.previous (c :: cs) = none := by
      rw [Sign.operator, ho]
    rw [firstOf_cons_of_none hrule]
    rfl

end Agreement

theorem eq_of_pair {a b : Char} (h : (c == a && headIs (· == b) cs) = true) :
    ∃ more, c = a ∧ cs = b :: more := by
  obtain ⟨hc, hcs⟩ := Bool.and_eq_true_iff.1 h
  obtain ⟨more, hmore⟩ := headIs_beq.1 hcs
  exact ⟨more, eq_of_beq hc, hmore⟩

theorem ite_or {α : Type} {a b : Bool} {x y : α} :
    (if a then x else if b then x else y) = if a || b then x else y := by
  cases a <;> rfl

/-- The tests for quoted strings, brought together by the kind of quote. -/
theorem ite_quotes {α : Type} {a b c d : Bool} (hex : (b && (a || c)) = false)
    {w x y z e : α} :
    (if a then w else if b then x else if c then y else if d then z else e)
      = if a || c then (if a then w else y) else if b || d then (if b then x else z) else e := by
  cases a <;> cases b <;> cases c <;> first | rfl | cases hex

/-- What stands before the opening quote that the two tests have found. -/
theorem exists_front {quote : Char}
    (h : (c == quote || ((c == 'b' || c == 'B') && headIs (· == quote) cs)) = true) :
    ∃ front inside, c :: cs = front ++ quote :: inside
      ∧ Quoted.opening? quote (c :: cs) = some (front ++ [quote], inside)
      ∧ (if c == quote then 0 else 1) = size front := by
  by_cases hq : c = quote
  · subst hq
    exact ⟨[], cs, rfl, by cases cs <;> simp [Quoted.opening?], by simp⟩
  · rw [beq_false_of_ne hq, Bool.false_or, Bool.and_eq_true] at h
    obtain ⟨inside, rfl⟩ := headIs_beq.1 h.2
    have hb : c = 'b' ∨ c = 'B' := by simpa using h.1
    refine ⟨[c], inside, rfl, by simp [Quoted.opening?, hq, hb], ?_⟩
    rw [if_neg (by simpa using hq)]
    rcases hb with rfl | rfl <;> rfl

theorem ite_singleQuoted_agrees (h : At src cursor.pos (c :: cs))
    (ht : (c == Quoted.single || ((c == 'b' || c == 'B') && headIs (· == Quoted.single) cs))
      = true) :
    Agrees src encapsed Quoted.singleQuoted cursor (c :: cs)
      (if c == Quoted.single then lexSingleQuoted src 0 cursor
        else lexSingleQuoted src 1 cursor) := by
  obtain ⟨front, inside, hcs, hopen, hsize⟩ := exists_front ht
  rw [← apply_ite (lexSingleQuoted src · cursor), hsize]
  rw [hcs] at h hopen ⊢
  exact singleQuoted_agrees h hopen

theorem ite_doubleQuoted_agrees (h : At src cursor.pos (c :: cs))
    (ht : (c == Quoted.double || ((c == 'b' || c == 'B') && headIs (· == Quoted.double) cs))
      = true) :
    Agrees src encapsed Quoted.doubleQuoted cursor (c :: cs)
      (if c == Quoted.double then lexDoubleQuoted src encapsed 0 cursor
        else lexDoubleQuoted src encapsed 1 cursor) := by
  obtain ⟨front, inside, hcs, hopen, hsize⟩ := exists_front ht
  rw [← apply_ite (lexDoubleQuoted src encapsed · cursor), hsize]
  rw [hcs] at h hopen ⊢
  exact doubleQuoted_agrees h hopen

theorem lexPlain_eq {byte : UInt8} (h : At src cursor.pos (c :: cs))
    (his : ∀ p, Uniform p → is p byte = p c)
    (hheredoc : Heredoc.rule cursor.previous (c :: cs) = none)
    (hcast : Sign.cast cursor.previous (c :: cs) = none) :
    lexPlain src encapsed byte cursor
      = follow src encapsed cursor (Code.scan cursor.previous (c :: cs)) := by
  have hscan : Code.scan cursor.previous (c :: cs)
      = firstOf Code.rules cursor.previous (c :: cs) := rfl
  rw [hscan, Code.rules, firstOf_cons_of_none hheredoc, firstOf_cons_of_none hcast]
  have hbeq : ∀ a : Char, a.toNat < 0x80 → is (· == a) byte = (c == a) :=
    fun a ha => his _ (.beq ha)
  have htwo : ∀ (a : Char) (p : Char → Bool), a.toNat < 0x80 → Uniform p →
      (is (· == a) byte && sees src (cursor.pos + 1) p) = (c == a && headIs p cs) := by
    intro a p ha hp
    rw [hbeq a ha, h.sees_next (Narrow.beq ha) hp]
  have hbinary : ∀ a : Char, a.toNat < 0x80 →
      (is (fun c => c == 'b' || c == 'B') byte && sees src (cursor.pos + 1) (· == a))
        = ((c == 'b' || c == 'B') && headIs (· == a) cs) := by
    intro a ha
    have hb : Narrow fun c => c == 'b' || c == 'B' := .or (.beq (by decide)) (.beq (by decide))
    rw [his _ hb.uniform, h.sees_next hb (.beq ha)]
  dsimp only [lexPlain]
  rw [his _ Narrow.isSpace.uniform, his _ Narrow.isDigit.uniform, his _ .isNameStart,
    htwo '?' _ (by decide) (.beq (by decide)), htwo '#' _ (by decide) (.beq (by decide)),
    hbeq '#' (by decide), htwo '/' _ (by decide) (.beq (by decide)),
    htwo '/' (· == '*') (by decide) (.beq (by decide)),
    htwo '$' _ (by decide) .isNameStart, hbeq _ single_ascii, hbeq _ double_ascii,
    hbinary _ single_ascii, hbinary _ double_ascii, hbeq Quoted.back (by decide),
    htwo '.' _ (by decide) Narrow.isDigit.uniform, hbeq '\\' (by decide)]
  refine ite_eq_follow (spaces_agrees h) (fun ht => by simp [Trivia.spaces, ht]) fun _ => ?_
  refine ite_eq_follow (fun ht => ?_) closeTag_passes fun _ => ?_
  · obtain ⟨more, rfl, rfl⟩ := eq_of_pair ht
    exact lexCloseTag_agrees h
  refine ite_eq_follow (fun ht => ?_) attribute_passes fun _ => ?_
  · obtain ⟨more, rfl, rfl⟩ := eq_of_pair ht
    exact attribute_agrees h
  refine ite_or.trans (ite_eq_follow (fun ht => ?_) (fun ht => ?_) fun _ => ?_)
  · exact lineComment_agrees h (by rw [opensLine_cons, ht])
  · rw [Trivia.lineComment, opensLine_cons, ht]
    rfl
  refine ite_eq_follow (fun ht => ?_) blockComment_passes fun _ => ?_
  · obtain ⟨more, rfl, rfl⟩ := eq_of_pair ht
    exact lexBlockComment_agrees h
  refine ite_eq_follow (fun ht => ?_) variable_passes fun _ => ?_
  · obtain ⟨hc, hcs⟩ := Bool.and_eq_true_iff.1 ht
    cases eq_of_beq hc
    exact variable_agrees h hcs
  refine (ite_quotes ?_).trans (ite_eq_follow (fun ht => ?_) (fun ht => ?_) fun _ => ?_)
  · by_cases hd : c = Quoted.double
    · subst hd
      rfl
    · rw [beq_false_of_ne hd, Bool.false_and]
  · exact ite_singleQuoted_agrees h ht
  · obtain ⟨hq, hb⟩ := Bool.or_eq_false_iff.1 ht
    rw [Quoted.singleQuoted, opening?_eq_none hq hb]
  refine ite_eq_follow (fun ht => ?_) (fun ht => ?_) fun _ => ?_
  · exact ite_doubleQuoted_agrees h ht
  · obtain ⟨hq, hb⟩ := Bool.or_eq_false_iff.1 ht
    rw [Quoted.doubleQuoted, opening?_eq_none hq hb]
  refine ite_eq_follow (fun ht => ?_) backQuoted_passes fun _ => ?_
  · cases eq_of_beq ht
    exact backQuoted_agrees h
  refine ite_or.trans (ite_eq_follow (number_agrees h) (fun ht => ?_) fun _ => ?_)
  · rw [Number.rule, if_neg]
    rw [Number.begins, ht]
    simp
  refine ite_eq_follow (fun ht => ?_) separator_passes fun _ => ?_
  · cases eq_of_beq ht
    exact separator_agrees h
  refine ite_eq_follow (lexIdentifier_agrees h) (fun ht => ?_) fun ht => ?_
  · rw [Word.rule, headIs_cons, ht]
    rfl
  · exact lexOperator_eq_follow h (ascii_of_not_isNameStart ht)

theorem lexToken_eq (h : At src cursor.pos (c :: cs)) :
    lexToken src encapsed cursor
      = follow src encapsed cursor (Code.scan cursor.previous (c :: cs)) := by
  obtain ⟨byte, hb, his⟩ := h.index
  rw [lexToken, hb, ok_bind, his _ (.beq (by decide)), header_or_none h, ok_bind]
  cases hheader : Heredoc.header? (c :: cs) with
  | some header =>
    exact (lexHeredoc_agrees h hheader).eq_follow
  | none =>
    have hheredoc : Heredoc.rule cursor.previous (c :: cs) = none := by rw [Heredoc.rule, hheader]
    rw [Option.map_none]
    dsimp only
    rw [his _ (.beq (by decide))]
    rcases cast_or_none h cursor.previous with ⟨hcast, hbyte⟩ | ⟨kind, text, rest, hcast, hbyte⟩
    · rw [hbyte, ok_bind]
      exact lexPlain_eq h his hheredoc hcast
    · have hscan : Code.scan cursor.previous (c :: cs) = .ok (.one kind text rest) :=
        (firstOf_cons_of_none hheredoc).trans (firstOf_cons_of_some hcast)
      rw [hbyte, ok_bind, hscan]
      rw [← (Sign.cast_conserves _ _ _ hcast).spelled] at h
      exact At.emit text (by simpa using h) rfl kind

end Dispatch

/-! ## Around the program -/

theorem stripAnyCase?_php (cs : List Char) :
    stripAnyCase? ['<', '?', 'p', 'h', 'p'] ('<' :: '?' :: cs)
      = if lower (cs.take 3) = ['p', 'h', 'p'] then some ('<' :: '?' :: cs.take 3, cs.drop 3)
        else none := by
  simp [stripAnyCase?, lower]

/-- The opening tag that begins with the two characters. -/
theorem openTagAt_eq (h : At src i ('<' :: '?' :: cs)) :
    openTagAt src i
      = .ok ((Markup.openTag? ('<' :: '?' :: cs)).map fun found =>
        (found.1.kind, i + size found.1.text)) := by
  have hcs : At src (i + 2) cs := h.append ['<', '?']
  have hphp : lower (letters ((encode cs).take 3)) = ['p', 'h', 'p']
      ↔ lower (cs.take 3) = ['p', 'h', 'p'] :=
    lower_letters_take_eq_iff (by decide : Plain ['p', 'h', 'p']) cs
  rw [openTagAt, hcs.tail, ok_bind, (At.start cs).sees (.beq (by decide)), Markup.openTag?]
  by_cases he : headIs (· == '=') cs = true
  · obtain ⟨rest, rfl⟩ := headIs_beq.1 he
    rfl
  · have hstrip : strip? ['<', '?', '='] ('<' :: '?' :: cs) = none := by
      have hone := strip?_singleton '=' cs
      rw [Bool.eq_false_iff.2 he, Option.isSome_eq_false_iff, Option.isNone_iff_eq_none] at hone
      exact hone
    rw [if_neg he, hstrip, stripAnyCase?_php]
    by_cases hp : lower (cs.take 3) = ['p', 'h', 'p']
    · have hsize : size (cs.take 3) = 3 := size_of_lower (by decide) hp
      have hlead : size ('<' :: '?' :: cs.take 3) = 5 := by
        rw [size_cons_of_ascii (by decide), size_cons_of_ascii (by decide), hsize]
      have hrest : At (encode cs) 3 (cs.drop 3) := by
        have := At.behind (cs.take 3) (cs.drop 3)
        rwa [hsize, List.take_append_drop] at this
      rw [if_pos (hphp.2 hp), if_pos hp]
      cases hdrop : cs.drop 3 with
      | nil =>
        have hnone : (encode cs)[3]? = none := by rw [hrest.getElem?_eq, hdrop]; rfl
        rw [hnone]
        simp [hlead, pure, Except.pure]
      | cons c rest =>
        rw [hdrop] at hrest
        obtain ⟨byte, hb, his⟩ := hrest.getElem?_cons
        rw [hb]
        dsimp only
        rw [his _ Narrow.isSpace.uniform]
        by_cases hs : isSpace c = true
        · simp only [hs, if_true, Option.map_some, size_append, hlead,
            size_cons_of_ascii (Narrow.isSpace c hs), size_nil]
          rfl
        · simp [hs, pure, Except.pure]
    · rw [if_neg (fun hbytes => hp (hphp.1 hbytes)), if_neg hp]
      rfl

/-- What is looked for lies behind what stands before every place of it. -/
theorem before_of_imp {p q : List Char → Bool} (h : ∀ ds, p ds = true → q ds = true)
    (cs : List Char) :
    before p cs = before q cs ++ before p (onward q cs) ∧ onward p cs = onward p (onward q cs) := by
  induction cs with
  | nil => exact ⟨rfl, rfl⟩
  | cons c cs ih =>
    by_cases hq : q (c :: cs) = true
    · simp [before, onward, hq]
    · have hp : ¬ p (c :: cs) = true := fun hp => hq (h _ hp)
      simp only [before, onward, hp, hq]
      exact ⟨congrArg (c :: ·) ih.1, ih.2⟩

/-- The two characters that begin an opening tag are next. -/
def beginsTag (cs : List Char) : Bool :=
  (strip? ['<', '?'] cs).isSome

theorem beginsTag_of_opens {cs : List Char} (h : Markup.opens cs = true) : beginsTag cs = true := by
  suffices ∃ rest, cs = '<' :: '?' :: rest by
    obtain ⟨rest, rfl⟩ := this
    rfl
  obtain ⟨⟨tag, after⟩, hf⟩ := Option.isSome_iff_exists.1 h
  rw [Markup.openTag?] at hf
  cases hs : strip? ['<', '?', '='] cs with
  | some rest => exact ⟨'=' :: rest, (strip?_eq_some hs).symm⟩
  | none =>
    rw [hs] at hf
    cases ha : stripAnyCase? ['<', '?', 'p', 'h', 'p'] cs with
    | none =>
      rw [ha] at hf
      cases hf
    | some found =>
      obtain ⟨happ, hlow⟩ := stripAnyCase?_eq_some ha
      rcases hfound : found.1 with _ | ⟨a, _ | ⟨b, text⟩⟩
      · simp [hfound, lower] at hlow
      · simp [hfound, lower] at hlow
      · simp only [hfound, lower, List.map_cons, List.cons.injEq] at hlow
        rw [eq_of_toLower hlow.1 (by decide), eq_of_toLower hlow.2.1 (by decide)] at hfound
        exact ⟨text ++ found.2, by rw [← happ, hfound]; rfl⟩

/-- The cursor behind the text around the program, and behind the tag that ends it. -/
def Cursor.afterHtml (cursor : Cursor) (cs : List Char) : Cursor :=
  match Markup.openTag? (onward Markup.opens cs) with
  | some (tag, _) =>
    { cursor.after (Lexeme.ofText .html (before Markup.opens cs) ++ [tag]) with inCode := true }
  | none => cursor.after [⟨.html, cs⟩]

/-- Text up to an opening tag and the tag; the text before `more` has been searched. -/
theorem lexInlineHtml_eq {front more : List Char} {fuel : Nat} (h : At src cursor.pos cs)
    (hcs : cs = front ++ more)
    (hbefore : before Markup.opens cs = front ++ before Markup.opens more)
    (honward : onward Markup.opens cs = onward Markup.opens more)
    (hfuel : src.length < cursor.pos + size front + fuel) :
    lexInlineHtml src fuel (cursor.pos + size front) cursor = .ok (cursor.afterHtml cs) := by
  induction fuel generalizing front more with
  | zero => exact absurd (At.append front (hcs ▸ h)).le_length (by omega)
  | succ fuel ih =>
    have hmore : At src (cursor.pos + size front) more := At.append front (hcs ▸ h)
    obtain ⟨hb, ho⟩ := before_of_imp (p := Markup.opens) (fun _ => beginsTag_of_opens) more
    have happ := before_append_onward beginsTag more
    rw [lexInlineHtml, hmore.tail, ok_bind]
    rcases find_cases (a := '<') (by decide) (fun _ => rfl : ∀ ds, beginsTag ds = _) more
      with ⟨hfind, hnil⟩ | ⟨rest, hon, hfind⟩
    · have hnone : Markup.openTag? (onward Markup.opens cs) = none := by rw [honward, ho, hnil]; rfl
      have hall : At src cursor.pos (cs ++ []) := by rwa [List.append_nil]
      rw [hfind, Cursor.afterHtml, hnone]
      exact hall.emit _ h.add_size.symm .html
    · rw [hfind]
      dsimp only
      generalize before beginsTag more = pre at happ hb
      have htagged : onward beginsTag more = '<' :: '?' :: rest := hon
      rw [htagged] at happ hb ho
      have htag : At src (cursor.pos + size front + size pre) ('<' :: '?' :: rest) :=
        At.append pre (happ.symm ▸ hmore)
      rw [openTagAt_eq htag, ok_bind]
      cases ht : Markup.openTag? ('<' :: '?' :: rest) with
      | some found =>
        have hopens : Markup.opens ('<' :: '?' :: rest) = true := by rw [Markup.opens, ht]; rfl
        rw [before, if_pos hopens, List.append_nil] at hb
        rw [onward, if_pos hopens] at ho
        have hall : At src cursor.pos ((front ++ pre) ++ (found.1.text ++ found.2)) := by
          have hspell : found.1.text ++ found.2 = '<' :: '?' :: rest := by
            simpa using (Markup.openTag?_covers ht).spelled
          rwa [hspell, List.append_assoc, happ, ← hcs]
        have hstop : cursor.pos + size front + size pre = cursor.pos + size (front ++ pre) := by
          rw [size_append, Nat.add_assoc]
        have hlast := hall.after_ofText .html
        rw [Cursor.afterHtml, honward, ho, ht, hbefore, hb]
        simp only [Option.map_some, hstop, hall.flush .html, ok_bind]
        rw [hlast.emit _ (by simp), ok_bind, Cursor.after_after]
        rfl
      | none =>
        have hopens : ¬ Markup.opens ('<' :: '?' :: rest) = true := by rw [Markup.opens, ht]; simp
        have hnext : ¬ Markup.opens ('?' :: rest) = true := fun hn => by
          cases beginsTag_of_opens hn
        rw [before, if_neg hopens, before, if_neg hnext] at hb
        rw [onward, if_neg hopens, onward, if_neg hnext] at ho
        have htwo : cursor.pos + size front + size pre + 2
            = cursor.pos + size (front ++ pre ++ ['<', '?']) := by
          have : size ['<', '?'] = 2 := rfl
          rw [size_append, size_append, this]
          omega
        rw [Option.map_none]
        dsimp only
        rw [htwo]
        refine ih ?_ ?_ (honward.trans ho) (by omega)
        · rw [hcs, ← happ]
          simp
        · rw [hbefore, hb]
          simp

end Listing.Bytes
