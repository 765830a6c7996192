import Listing.Proofs.Lexemes

/-!
# How far the rules look ahead

What a rule reads can depend on text far behind it: a run of spaces goes on, a cast wants its
parenthesis, `enum` wants a name. Here the text ends with a closing tag and its newline
(`Text.Sealed`), and then nothing that is appended matters (`Rule.Stable`): every run of characters
of one class is stopped by the newline or, if it may hold newlines, by the mark before it, and every
text that is looked for is either there or differs from what is there.

A rule that fails is excepted. It has looked for a closing mark to the end, and the appended text may
bring one.
-/

namespace Listing

/-! ## Texts with more behind them -/

namespace Text

theorem headIs_append {cs : List Char} (h : cs ≠ []) (p : Char → Bool) (after : List Char) :
    headIs p (cs ++ after) = headIs p cs := by
  cases cs with
  | nil => exact absurd rfl h
  | cons c cs => rfl

theorem headIs_iff_takeWhile {p : Char → Bool} {cs : List Char} :
    headIs p cs = true ↔ cs.takeWhile p ≠ [] := by
  cases cs with
  | nil => simp
  | cons c cs => by_cases hc : p c = true <;> simp [hc]

section Runs

variable {p : Char → Bool} {c : Char} (hp : p c = false)
include hp

theorem mem_dropWhile {cs : List Char} (h : c ∈ cs) : c ∈ cs.dropWhile p := by
  induction cs with
  | nil => cases h
  | cons d cs ih =>
    rw [List.dropWhile_cons]
    split
    · next hd =>
      rcases List.mem_cons.1 h with rfl | h
      · rw [hp] at hd
        cases hd
      · exact ih h
    · exact h

theorem takeWhile_append_of_mem {cs : List Char} (h : c ∈ cs) (after : List Char) :
    (cs ++ after).takeWhile p = cs.takeWhile p := by
  induction cs with
  | nil => cases h
  | cons d cs ih =>
    rw [List.cons_append, List.takeWhile_cons, List.takeWhile_cons]
    split
    · next hd =>
      rcases List.mem_cons.1 h with rfl | h
      · rw [hp] at hd
        cases hd
      · rw [ih h]
    · rfl

theorem dropWhile_append_of_mem {cs : List Char} (h : c ∈ cs) (after : List Char) :
    (cs ++ after).dropWhile p = cs.dropWhile p ++ after := by
  induction cs with
  | nil => cases h
  | cons d cs ih =>
    rw [List.cons_append, List.dropWhile_cons, List.dropWhile_cons]
    split
    · next hd =>
      rcases List.mem_cons.1 h with rfl | h
      · rw [hp] at hd
        cases hd
      · rw [ih h]
    · rfl

end Runs

/-- A text that is looked for is found, or not, within a text that holds a newline. -/
theorem strip?_append_right {ps cs : List Char} (h : '\n' ∈ cs) (hps : '\n' ∉ ps.dropLast)
    (after : List Char) : strip? ps (cs ++ after) = (strip? ps cs).map (· ++ after) := by
  induction ps generalizing cs with
  | nil => rfl
  | cons p ps ih =>
    cases cs with
    | nil => cases h
    | cons c cs =>
      rw [List.cons_append, strip?, strip?]
      split
      · next hc =>
        cases ps with
        | nil => rfl
        | cons q qs =>
          rw [List.dropLast_cons_of_ne_nil (List.cons_ne_nil q qs), List.mem_cons, not_or] at hps
          refine ih ?_ hps.2
          rcases List.mem_cons.1 h with rfl | h
          · exact absurd hc.symm hps.1
          · exact h
      · rfl

theorem newline_mem_of_append {a cs : List Char} (h : '\n' ∈ a ++ cs) (ha : '\n' ∉ a) :
    '\n' ∈ cs :=
  (List.mem_append.1 h).resolve_left ha

theorem newline_mem_of_strip? {ps cs rest : List Char} (h : '\n' ∈ cs) (hps : '\n' ∉ ps)
    (hs : strip? ps cs = some rest) : '\n' ∈ rest :=
  newline_mem_of_append (strip?_eq_some hs ▸ h) hps

theorem stripAnyCase?_append_right {ps cs : List Char} (h : '\n' ∈ cs) (hps : '\n' ∉ ps)
    (after : List Char) :
    stripAnyCase? ps (cs ++ after)
      = (stripAnyCase? ps cs).map fun found => (found.1, found.2 ++ after) := by
  by_cases hlen : ps.length ≤ cs.length
  · rw [stripAnyCase?, stripAnyCase?, List.take_append_of_le_length hlen,
      List.drop_append_of_le_length hlen]
    split <;> rfl
  · -- the newline is among the characters that are compared
    have hall : ∀ more : List Char, lower ((cs ++ more).take ps.length) ≠ ps := by
      intro more heq
      have hmem : '\n' ∈ (cs ++ more).take ps.length := by
        rw [List.take_append, List.take_of_length_le (Nat.le_of_not_le hlen)]
        exact List.mem_append_left _ h
      have hlower : Char.toLower '\n' ∈ lower ((cs ++ more).take ps.length) :=
        List.mem_map_of_mem hmem
      rw [heq] at hlower
      exact hps hlower
    have hcs := hall []
    rw [List.append_nil] at hcs
    rw [stripAnyCase?, stripAnyCase?, if_neg (hall after), if_neg hcs]
    rfl

/-- The first place where something begins stays the first, as long as no place before the end is
judged by what is appended. -/
theorem before_append_right {stop : List Char → Bool} {cs : List Char} (after : List Char)
    (hstop : ∀ rest, rest <:+ cs → rest ≠ [] → stop (rest ++ after) = stop rest)
    (h : onward stop cs ≠ []) :
    before stop (cs ++ after) = before stop cs
      ∧ onward stop (cs ++ after) = onward stop cs ++ after := by
  induction cs with
  | nil => exact absurd rfl h
  | cons c cs ih =>
    have hc := hstop (c :: cs) (List.suffix_refl _) (List.cons_ne_nil c cs)
    rw [List.cons_append] at hc ⊢
    rw [before, before, onward, onward, hc]
    rw [onward] at h
    split
    · exact ⟨rfl, rfl⟩
    · next hs =>
      rw [if_neg hs] at h
      obtain ⟨hbefore, honward⟩ := ih (fun rest hr => hstop rest (hr.trans (List.suffix_cons c cs))) h
      exact ⟨by rw [hbefore], honward⟩

/-- Nothing begins before the first place where something does. -/
theorem stop_before {stop : List Char → Bool} (cs : List Char) {k : Nat}
    (hk : k < (before stop cs).length) :
    stop ((before stop cs).drop k ++ onward stop cs) = false := by
  induction cs generalizing k with
  | nil => cases hk
  | cons c cs ih =>
    by_cases hs : stop (c :: cs) = true
    · simp [before, hs] at hk
    · simp only [before, onward, hs] at hk ⊢
      cases k with
      | zero => simpa using hs
      | succ k => exact ih (Nat.lt_of_succ_lt_succ hk)

/-- There is such a place, or the text is used up. -/
theorem onward_eq_nil_or (stop : List Char → Bool) (cs : List Char) :
    onward stop cs = [] ∨ stop (onward stop cs) = true := by
  induction cs with
  | nil => exact .inl rfl
  | cons c cs ih =>
    rw [onward]
    split
    · next hs => exact .inr hs
    · exact ih

theorem before_eq_self {stop : List Char → Bool} {cs : List Char} (h : onward stop cs = []) :
    before stop cs = cs := by
  have := before_append_onward stop cs
  rwa [h, List.append_nil] at this

/-- The closing tag with its newline. -/
def closing : List Char := ['?', '>', '\n']

/-- The text ends with a closing tag and its newline. -/
def Sealed (cs : List Char) : Prop :=
  closing <:+ cs

namespace Sealed

theorem newline_mem {cs : List Char} (h : Sealed cs) : '\n' ∈ cs :=
  h.subset (by decide)

theorem mark_mem {cs : List Char} (h : Sealed cs) : '?' ∈ cs :=
  h.subset (by decide)

theorem ne_nil {cs : List Char} (h : Sealed cs) : cs ≠ [] :=
  List.ne_nil_of_mem h.newline_mem

/-- Every text at the end of a sealed one holds its newline. -/
theorem newline_mem_of_suffix {cs rest : List Char} (h : Sealed cs) (hr : rest <:+ cs)
    (hne : rest ≠ []) : '\n' ∈ rest := by
  have hlast : ['\n'] <:+ cs := List.IsSuffix.trans ⟨['?', '>'], rfl⟩ h
  rcases List.suffix_or_suffix_of_suffix hlast hr with hs | hs
  · exact hs.subset (by simp)
  · rcases List.suffix_cons_iff.1 hs with rfl | hs
    · simp
    · exact absurd (List.suffix_nil.1 hs) hne

/-- A text without the closing mark can be cut off the front. -/
theorem of_append {front cs : List Char} (h : Sealed (front ++ cs)) (hf : '?' ∉ front) :
    Sealed cs := by
  induction front with
  | nil => exact h
  | cons c front ih =>
    rw [List.mem_cons, not_or] at hf
    refine ih ?_ hf.2
    rcases List.suffix_cons_iff.1 h with heq | h
    · exact absurd (List.cons.inj heq).1 hf.1
    · exact h

theorem dropWhile {cs : List Char} (h : Sealed cs) {p : Char → Bool} (hp : p '?' = false) :
    Sealed (cs.dropWhile p) := by
  rw [← List.takeWhile_append_dropWhile (p := p) (l := cs)] at h
  refine h.of_append fun hmem => ?_
  have hall : p '?' = true := List.all_eq_true.1 List.all_takeWhile _ hmem
  rw [hp] at hall
  cases hall

end Sealed

end Text

open Text

namespace Lexer

/-! ## Rules with more behind them -/

/-- The scan of a text with more behind it. -/
def Scan.extend (after : List Char) (scan : Scan) : Scan :=
  { scan with rest := scan.rest ++ after }

/-- What a rule makes of a sealed text does not change when more text follows, unless it failed. -/
def Rule.Stable (rule : Rule) : Prop :=
  ∀ (previous : Option Kind) {cs : List Char}, Sealed cs →
    (∀ construct, rule previous cs ≠ some (.error construct)) → ∀ after : List Char,
    rule previous (cs ++ after) = (rule previous cs).map (·.map (Scan.extend after))

namespace Trivia

theorem spaces_stable : Rule.Stable spaces := by
  intro previous cs h _ after
  unfold spaces
  rw [headIs_append h.ne_nil, takeWhile_append_of_mem (c := '?') rfl h.mark_mem,
    dropWhile_append_of_mem (c := '?') rfl h.mark_mem]
  split <;> rfl

theorem closeTag_stable : Rule.Stable closeTag := by
  intro previous cs h _ after
  unfold closeTag
  rw [strip?_append_right h.newline_mem (by decide), strip?_append_right h.newline_mem (by decide)]
  cases strip? ['?', '>', '\n'] cs with
  | some rest => rfl
  | none => cases strip? ['?', '>'] cs <;> rfl

theorem endsLine_append {cs : List Char} (h : '\n' ∈ cs) (after : List Char) :
    endsLine (cs ++ after) = endsLine cs := by
  rw [endsLine, endsLine, headIs_append (List.ne_nil_of_mem h), strip?_append_right h (by decide),
    Option.isSome_map]

theorem onward_endsLine_ne_nil {cs : List Char} (h : '\n' ∈ cs) : onward endsLine cs ≠ [] := by
  induction cs with
  | nil => cases h
  | cons c cs ih =>
    rw [onward]
    split
    · exact List.cons_ne_nil c cs
    · next hc =>
      rcases List.mem_cons.1 h with rfl | h
      · simp [endsLine] at hc
      · exact ih h

theorem opensLine_cons_cons (c d : Char) (cs : List Char) :
    opensLine (c :: d :: cs) = (c == '#' || c == '/' && d == '/') := by
  unfold opensLine
  split <;> simp_all

theorem opensLine_append {cs : List Char} (h : '\n' ∈ cs) (after : List Char) :
    opensLine (cs ++ after) = opensLine cs := by
  match cs with
  | [] => cases h
  | [c] =>
    rw [List.mem_singleton] at h
    subst h
    rfl
  | c :: d :: cs => rw [List.cons_append, List.cons_append, opensLine_cons_cons, opensLine_cons_cons]

theorem lineComment_stable : Rule.Stable lineComment := by
  intro previous cs h _ after
  obtain ⟨hbefore, honward⟩ := before_append_right after
    (fun rest hr hne => endsLine_append (h.newline_mem_of_suffix hr hne) after)
    (onward_endsLine_ne_nil h.newline_mem)
  unfold lineComment
  rw [opensLine_append h.newline_mem, hbefore, honward]
  split <;> rfl

theorem isDoc_cons_cons (c d : Char) (cs : List Char) :
    isDoc (c :: d :: cs) = (c == '*' && isSpace d) := by
  unfold isDoc
  split <;> simp_all

theorem isDoc_append {cs : List Char} (h : '\n' ∈ cs) (after : List Char) :
    isDoc (cs ++ after) = isDoc cs := by
  match cs with
  | [] => cases h
  | [c] =>
    rw [List.mem_singleton] at h
    subst h
    rfl
  | c :: d :: cs => rw [List.cons_append, List.cons_append, isDoc_cons_cons, isDoc_cons_cons]

theorem blockComment_stable : Rule.Stable blockComment := by
  intro previous cs h hok after
  unfold blockComment at hok ⊢
  rw [strip?_append_right h.newline_mem (by decide)]
  cases hs : strip? ['/', '*'] cs with
  | none => rfl
  | some inside =>
    have hinside : Sealed inside := Sealed.of_append (strip?_eq_some hs ▸ h) (by decide)
    simp only [hs] at hok
    cases hc : strip? ['*', '/'] (onward closesBlock inside) with
    | none => simp [hc] at hok
    | some rest =>
      have hne : onward closesBlock inside ≠ [] := by
        intro hnil
        rw [hnil] at hc
        cases hc
      have hstop : ∀ more, more <:+ inside → more ≠ [] →
          closesBlock (more ++ after) = closesBlock more := by
        intro more hm hmne
        rw [closesBlock, closesBlock,
          strip?_append_right (hinside.newline_mem_of_suffix hm hmne) (by decide),
          Option.isSome_map]
      obtain ⟨hbefore, honward⟩ := before_append_right after hstop hne
      have hsuffix : onward closesBlock inside <:+ inside := ⟨_, before_append_onward _ _⟩
      simp only [Option.map_some, hbefore, honward, isDoc_append hinside.newline_mem,
        strip?_append_right (hinside.newline_mem_of_suffix hsuffix hne)
          (show '\n' ∉ ['*', '/'].dropLast by decide), hc]
      rfl

end Trivia

namespace Sign

theorem attribute_stable : Rule.Stable attribute_ := by
  intro previous cs h _ after
  unfold attribute_
  rw [strip?_append_right h.newline_mem (by decide)]
  cases strip? ['#', '['] cs <;> rfl

theorem variable_stable : Rule.Stable variable_ := by
  intro previous cs h _ after
  cases cs with
  | nil => exact absurd rfl h.ne_nil
  | cons c name =>
    by_cases hc : c = '$'
    · subst hc
      have hname : '\n' ∈ name := newline_mem_of_append (a := ['$']) h.newline_mem (by decide)
      simp only [List.cons_append, variable_, headIs_append (List.ne_nil_of_mem hname),
        takeWhile_append_of_mem (p := isNameChar) rfl hname,
        dropWhile_append_of_mem (p := isNameChar) rfl hname]
      split <;> rfl
    · simp [variable_, hc]

theorem cast_stable : Rule.Stable cast := by
  intro previous cs h _ after
  cases cs with
  | nil => exact absurd rfl h.ne_nil
  | cons c inside =>
    by_cases hc : c = '('
    · subst hc
      have hinside : '\n' ∈ inside := newline_mem_of_append (a := ['(']) h.newline_mem (by decide)
      have hword := mem_dropWhile (p := isBlank) rfl hinside
      have hgap := mem_dropWhile (p := Char.isAlpha) rfl hword
      have hclose := mem_dropWhile (p := isBlank) rfl hgap
      simp only [List.cons_append, cast, takeWhile_append_of_mem (p := isBlank) rfl hinside,
        dropWhile_append_of_mem (p := isBlank) rfl hinside,
        takeWhile_append_of_mem (p := Char.isAlpha) rfl hword,
        dropWhile_append_of_mem (p := Char.isAlpha) rfl hword,
        takeWhile_append_of_mem (p := isBlank) rfl hgap,
        dropWhile_append_of_mem (p := isBlank) rfl hgap,
        strip?_append_right hclose (show '\n' ∉ [')'].dropLast by decide)]
      cases castNamed? (String.ofList (lower ((inside.dropWhile isBlank).takeWhile Char.isAlpha))) with
      | none => rfl
      | some kind => cases strip? [')'] _ <;> rfl
    · simp [cast, hc]

theorem separator_stable : Rule.Stable separator := by
  intro previous cs h _ after
  cases cs with
  | nil => exact absurd rfl h.ne_nil
  | cons c rest =>
    by_cases hc : c = '\\'
    · subst hc
      rfl
    · simp [separator, hc]

theorem operators_newline : ∀ entry ∈ operators, '\n' ∉ entry.1.dropLast := by decide

theorem operator?_append_right {cs : List Char} (h : '\n' ∈ cs) (after : List Char) :
    operator? (cs ++ after)
      = (operator? cs).map fun found => (found.1, found.2.1, found.2.2 ++ after) := by
  unfold operator?
  have hall := operators_newline
  generalize operators = entries at hall
  induction entries with
  | nil => rfl
  | cons entry entries ih =>
    rw [List.findSome?_cons, List.findSome?_cons,
      strip?_append_right h (hall entry List.mem_cons_self)]
    cases strip? entry.1 cs with
    | some rest => rfl
    | none => exact ih fun found hf => hall found (List.mem_cons_of_mem _ hf)

theorem operator_stable : Rule.Stable operator := by
  intro previous cs h _ after
  unfold operator
  rw [operator?_append_right h.newline_mem]
  cases operator? cs <;> rfl

theorem character_stable : Rule.Stable character := by
  intro previous cs h _ after
  cases cs with
  | nil => exact absurd rfl h.ne_nil
  | cons c rest => rfl

end Sign

namespace Number

/-- A number, with more text behind it. -/
def extend (after : List Char) (number : Kind × List Char × List Char) :
    Kind × List Char × List Char :=
  (number.1, number.2.1, number.2.2 ++ after)

theorem begins_append {cs : List Char} (h : '\n' ∈ cs) (after : List Char) :
    begins (cs ++ after) = begins cs := by
  match cs with
  | [] => cases h
  | [c] =>
    rw [List.mem_singleton] at h
    subst h
    rfl
  | c :: d :: cs => rfl

theorem based?_append_right {cs : List Char} (h : '\n' ∈ cs) (after : List Char) :
    based? (cs ++ after) = (based? cs).map (extend after) := by
  match cs with
  | [] => cases h
  | [c] =>
    rw [List.mem_singleton] at h
    subst h
    rfl
  | c :: letter :: cs =>
    by_cases hc : c = '0'
    · subst hc
      simp only [List.cons_append, based?]
      cases hr : radix? letter with
      | none => rfl
      | some radix =>
        have hletter : '\n' ≠ letter := by
          rintro rfl
          cases hr
        have hcs : '\n' ∈ cs :=
          newline_mem_of_append (a := ['0', letter]) h (by simp [hletter])
        simp only [takeWhile_append_of_mem (isDigitOf_newline radix) hcs,
          dropWhile_append_of_mem (isDigitOf_newline radix) hcs]
        split <;> rfl
    · simp [based?, hc]

theorem fraction_append_right {cs : List Char} (h : '\n' ∈ cs) (after : List Char) :
    fraction (cs ++ after) = ((fraction cs).1, (fraction cs).2 ++ after) := by
  cases cs with
  | nil => cases h
  | cons c cs =>
    by_cases hc : c = '.'
    · subst hc
      have hcs : '\n' ∈ cs := newline_mem_of_append (a := ['.']) h (by decide)
      simp only [List.cons_append, fraction, takeWhile_append_of_mem (p := isDigitOrGroup) rfl hcs,
        dropWhile_append_of_mem (p := isDigitOrGroup) rfl hcs]
    · simp [fraction, hc]

theorem newline_mem_fraction {cs : List Char} (h : '\n' ∈ cs) : '\n' ∈ (fraction cs).2 :=
  newline_mem_of_append (by rwa [fraction_append]) (fraction_inline cs)

theorem sign_append_right {cs : List Char} (h : cs ≠ []) (after : List Char) :
    sign (cs ++ after) = ((sign cs).1, (sign cs).2 ++ after) := by
  cases cs with
  | nil => exact absurd rfl h
  | cons c cs =>
    by_cases hplus : c = '+'
    · subst hplus
      rfl
    · by_cases hminus : c = '-'
      · subst hminus
        rfl
      · simp [sign, hplus, hminus]

theorem exponent_append_right {cs : List Char} (h : '\n' ∈ cs) (after : List Char) :
    exponent (cs ++ after) = ((exponent cs).1, (exponent cs).2 ++ after) := by
  cases cs with
  | nil => cases h
  | cons c cs =>
    rw [List.cons_append, exponent, exponent]
    by_cases hc : c.toLower = 'e'
    · have hne : '\n' ≠ c := by
        rintro rfl
        exact absurd hc (by decide)
      have hcs : '\n' ∈ cs := newline_mem_of_append (a := [c]) h (by simpa using hne)
      have hdigits : '\n' ∈ (sign cs).2 :=
        newline_mem_of_append (by rwa [sign_append]) (sign_inline cs)
      rw [sign_append_right (List.ne_nil_of_mem hcs)]
      simp only [headIs_append (List.ne_nil_of_mem hdigits),
        takeWhile_append_of_mem (p := isDigitOrGroup) rfl hdigits,
        dropWhile_append_of_mem (p := isDigitOrGroup) rfl hdigits]
      split <;> rfl
    · simp [hc]

theorem decimal_append_right {cs : List Char} (h : '\n' ∈ cs) (after : List Char) :
    decimal (cs ++ after) = extend after (decimal cs) := by
  have hpoint := mem_dropWhile (p := isDigitOrGroup) rfl h
  simp only [decimal, extend, takeWhile_append_of_mem (p := isDigitOrGroup) rfl h,
    dropWhile_append_of_mem (p := isDigitOrGroup) rfl h, fraction_append_right hpoint,
    exponent_append_right (newline_mem_fraction hpoint)]

theorem rule_stable : Rule.Stable rule := by
  intro previous cs h _ after
  have hsplit : split (cs ++ after) = extend after (split cs) := by
    rw [split, split, based?_append_right h.newline_mem, decimal_append_right h.newline_mem]
    cases based? cs <;> rfl
  unfold rule
  rw [begins_append h.newline_mem, hsplit]
  split <;> rfl

end Number

namespace Word

theorem from?_append_right {cs : List Char} (h : '\n' ∈ cs) (after : List Char) :
    from? (cs ++ after) = (from? cs).map fun found => (found.1, found.2 ++ after) := by
  have hgap := mem_dropWhile (p := isBlank) rfl h
  unfold from?
  rw [headIs_append (List.ne_nil_of_mem h), takeWhile_append_of_mem (p := isBlank) rfl h,
    dropWhile_append_of_mem (p := isBlank) rfl h,
    stripAnyCase?_append_right hgap (show '\n' ∉ "from".toList by decide)]
  split
  · cases hs : stripAnyCase? "from".toList (cs.dropWhile isBlank) with
    | none => rfl
    | some found =>
      obtain ⟨word, rest⟩ := found
      obtain ⟨happ, hlower⟩ := stripAnyCase?_eq_some hs
      have hrest : '\n' ∈ rest := newline_mem_of_append (happ ▸ hgap)
        (newline_notMem_of_lower (by rw [hlower]; decide))
      simp only [Option.map_some, headIs_append (List.ne_nil_of_mem hrest)]
      split <;> rfl
  · rfl

theorem namedAhead_append {cs : List Char} (h : Sealed cs) (after : List Char) :
    namedAhead (cs ++ after) = namedAhead cs := by
  have hgap := h.dropWhile (p := isSpace) rfl
  rw [namedAhead, namedAhead, headIs_append h.ne_nil,
    dropWhile_append_of_mem (c := '?') rfl h.mark_mem, headIs_append hgap.ne_nil]

theorem rule_stable : Rule.Stable rule := by
  intro previous cs h _ after
  have hrest := h.dropWhile (p := isNameChar) rfl
  unfold rule
  rw [headIs_append h.ne_nil, takeWhile_append_of_mem (p := isNameChar) rfl h.newline_mem,
    dropWhile_append_of_mem (p := isNameChar) rfl h.newline_mem]
  split
  · dsimp only
    rw [namedAhead_append hrest, from?_append_right hrest.newline_mem]
    split
    · cases from? (cs.dropWhile isNameChar) <;> rfl
    · rfl
    · rfl
  · rfl

end Word

namespace Quoted

theorem closingQuote?_cons_of_ne {quote c : Char} (hb : c ≠ '\\') (cs : List Char) :
    closingQuote? quote (c :: cs)
      = if c = quote then some ([], cs)
        else (closingQuote? quote cs).map fun found => (c :: found.1, found.2) := by
  cases cs <;> simp [closingQuote?, hb]

/-- Whether an interpolation begins is seen in two characters. -/
theorem beginsInterpolation_cons (c : Char) (cs : List Char) :
    beginsInterpolation (c :: cs)
      = (c == '$' && headIs (fun c => isNameStart c || c == '\x7b') cs
        || c == '\x7b' && headIs (· == '$') cs) := by
  by_cases hd : c = '$'
  · subst hd
    cases cs with
    | nil => rfl
    | cons d cs => simp [beginsInterpolation]
  · by_cases hb : c = '\x7b'
    · subst hb
      cases cs <;> rfl
    · simp [beginsInterpolation, hd, hb]

/-- The closing quote is the first that counts, whatever follows it. -/
theorem closingQuote?_append_right {quote : Char} {cs body rest : List Char}
    (h : closingQuote? quote cs = some (body, rest)) (after : List Char) :
    closingQuote? quote (cs ++ after) = some (body, rest ++ after) := by
  fun_induction closingQuote? quote cs generalizing body with
  | case1 => cases h
  | case2 => cases h
  | case3 d ds ih =>
    obtain ⟨found, hf, he⟩ := Option.map_eq_some_iff.1 h
    cases he
    simp [closingQuote?, ih hf]
  | case4 cs hb =>
    cases h
    rw [List.cons_append, closingQuote?_cons_of_ne hb, if_pos rfl]
  | case5 c cs hb hq ih =>
    obtain ⟨found, hf, he⟩ := Option.map_eq_some_iff.1 h
    cases he
    rw [List.cons_append, closingQuote?_cons_of_ne hb, if_neg hq, ih hf]
    rfl

theorem opening?_append_right {quote : Char} {cs : List Char} (h : '\n' ∈ cs)
    (after : List Char) :
    opening? quote (cs ++ after)
      = (opening? quote cs).map fun found => (found.1, found.2 ++ after) := by
  match cs with
  | [] => cases h
  | [c] =>
    rw [List.mem_singleton] at h
    subst h
    simp only [List.cons_append, List.nil_append, opening?]
    split
    · rfl
    · simp
  | c :: d :: cs =>
    simp only [List.cons_append, opening?]
    split
    · rfl
    · split
      · split <;> rfl
      · rfl

theorem singleQuoted_stable : Rule.Stable singleQuoted := by
  intro previous cs h hok after
  unfold singleQuoted at hok ⊢
  rw [opening?_append_right h.newline_mem]
  cases ho : opening? single cs with
  | none => rfl
  | some found =>
    obtain ⟨opening, inside⟩ := found
    cases hc : closingQuote? single inside with
    | none => simp [ho, hc] at hok
    | some found => simp [hc, closingQuote?_append_right hc, Except.map, Scan.extend]

theorem doubleQuoted_stable : Rule.Stable doubleQuoted := by
  intro previous cs h hok after
  unfold doubleQuoted at hok ⊢
  rw [opening?_append_right h.newline_mem]
  cases ho : opening? double cs with
  | none => rfl
  | some found =>
    obtain ⟨opening, inside⟩ := found
    cases hc : closingQuote? double inside with
    | none => simp [ho, hc] at hok
    | some found =>
      simp only [Option.map_some, hc, closingQuote?_append_right hc]
      split <;> rfl

theorem backQuoted_stable : Rule.Stable backQuoted := by
  intro previous cs h _ after
  unfold backQuoted
  rw [strip?_append_right h.newline_mem (by decide)]
  cases strip? [back] cs <;> rfl

end Quoted

namespace Heredoc

theorem labelLine?_append_right {quotes cs : List Char} (h : '\n' ∈ cs) (hq : '\n' ∉ quotes)
    (after : List Char) :
    labelLine? quotes (cs ++ after)
      = (labelLine? quotes cs).map fun found => (found.1, found.2.1, found.2.2 ++ after) := by
  unfold labelLine?
  rw [strip?_append_right h fun hmem => hq (List.dropLast_subset _ hmem)]
  cases hs : strip? quotes cs with
  | none => rfl
  | some inside =>
    have hinside := newline_mem_of_strip? h hq hs
    cases inside with
    | nil => cases hinside
    | cons c name =>
      simp only [Option.map_some, List.cons_append]
      split
      · next hc =>
        have hne : '\n' ≠ c := by
          rintro rfl
          exact absurd hc (by decide)
        have hname : '\n' ∈ name :=
          newline_mem_of_append (a := [c]) hinside (by simpa using hne)
        have hend := mem_dropWhile (p := isNameChar) rfl hname
        rw [takeWhile_append_of_mem (p := isNameChar) rfl hname,
          dropWhile_append_of_mem (p := isNameChar) rfl hname,
          strip?_append_right hend (by simpa using hq)]
        cases strip? (quotes ++ ['\n']) (name.dropWhile isNameChar) <;> rfl
      · rfl

/-- A header with more text behind it. -/
def Header.extend (after : List Char) (header : Header) : Header :=
  { header with rest := header.rest ++ after }

theorem header?_append_right {cs : List Char} (h : '\n' ∈ cs) (after : List Char) :
    header? (cs ++ after) = (header? cs).map (Header.extend after) := by
  unfold header?
  rw [strip?_append_right h (by decide)]
  cases hs : strip? ['<', '<', '<'] cs with
  | none => rfl
  | some line =>
    have hline := newline_mem_of_strip? h (by decide) hs
    have hlabel := mem_dropWhile (p := isBlank) rfl hline
    simp only [Option.map_some, takeWhile_append_of_mem (p := isBlank) rfl hline,
      dropWhile_append_of_mem (p := isBlank) rfl hline,
      labelLine?_append_right hlabel (show '\n' ∉ [Quoted.single] by decide),
      labelLine?_append_right hlabel (show '\n' ∉ [Quoted.double] by decide),
      labelLine?_append_right hlabel (show '\n' ∉ [] by decide)]
    cases labelLine? [Quoted.single] (line.dropWhile isBlank) with
    | some found => rfl
    | none =>
      cases labelLine? [Quoted.double] (line.dropWhile isBlank) with
      | some found => rfl
      | none => cases labelLine? [] (line.dropWhile isBlank) <;> rfl

theorem closeAt?_append_right {label : Label} (hl : label.IsName) {cs : List Char}
    (h : '\n' ∈ cs) (after : List Char) :
    closeAt? label (cs ++ after)
      = (closeAt? label cs).map fun found => (found.1, found.2 ++ after) := by
  have hlabel := mem_dropWhile (p := isBlank) rfl h
  unfold closeAt?
  rw [takeWhile_append_of_mem (p := isBlank) rfl h, dropWhile_append_of_mem (p := isBlank) rfl h,
    strip?_append_right hlabel fun hmem => hl.inline (List.dropLast_subset _ hmem)]
  cases hs : strip? label.chars (cs.dropWhile isBlank) with
  | none => rfl
  | some rest =>
    have hrest := newline_mem_of_strip? hlabel hl.inline hs
    simp only [Option.map_some, headIs_append (List.ne_nil_of_mem hrest)]
    split <;> rfl

/-- The first line that closes a label stays the first. -/
theorem untilClose?_append_right {label : Label} (hl : label.IsName) {fresh : Bool}
    {cs body line : List Char} (hend : ∀ rest, rest <:+ cs → rest ≠ [] → '\n' ∈ rest)
    (h : untilClose? label fresh cs = some (body, line)) (after : List Char) :
    untilClose? label fresh (cs ++ after) = some (body, line ++ after) := by
  induction cs generalizing fresh body with
  | nil => cases h
  | cons c cs ih =>
    have hmem := hend (c :: cs) (List.suffix_refl _) (List.cons_ne_nil c cs)
    have hclose := closeAt?_append_right hl hmem after
    rw [List.cons_append] at hclose ⊢
    rw [untilClose?] at h ⊢
    rw [hclose, Option.isSome_map]
    split at h
    · next hc =>
      cases h
      rw [if_pos hc]
      rfl
    · next hc =>
      obtain ⟨found, hf, he⟩ := Option.map_eq_some_iff.1 h
      cases he
      rw [if_neg hc, ih (fun rest hr => hend rest (hr.trans (List.suffix_cons c cs))) hf]
      rfl

theorem rule_stable : Rule.Stable rule := by
  intro previous cs h hok after
  unfold rule at hok ⊢
  rw [header?_append_right h.newline_mem]
  cases hh : header? cs with
  | none => rfl
  | some header =>
    simp only [hh, Option.map_some, Header.extend] at hok ⊢
    split
    · next hraw =>
      rw [if_pos hraw] at hok
      cases hu : untilClose? header.label true header.rest with
      | none => simp [hu] at hok
      | some found =>
        obtain ⟨body, line⟩ := found
        cases hc : closeAt? header.label line with
        | none => simp [hu, hc] at hok
        | some found =>
          have hrest : header.rest <:+ cs := ⟨_, (header?_append hh).1⟩
          have hname := header?_isName hh
          have hline : line <:+ header.rest := ⟨_, untilClose?_append hu⟩
          have hne : line ≠ [] := by
            rintro rfl
            obtain ⟨htext, hnil⟩ := closeAt?_append hc
            exact hnil (List.append_eq_nil_iff.1 htext).1
          have hmem := h.newline_mem_of_suffix (hline.trans hrest) hne
          simp [untilClose?_append_right hname
            (fun rest hr => h.newline_mem_of_suffix (hr.trans hrest)) hu, hc,
            closeAt?_append_right hname hmem, Except.map, Scan.extend]
    · rfl

end Heredoc

namespace Body

/-- An event with more text behind it. -/
def Event.extend (after : List Char) : Event → Event
  | .close lexemes rest => .close lexemes (rest ++ after)
  | .splice lexemes rest => .splice lexemes (rest ++ after)
  | .hole lexemes rest => .hole lexemes (rest ++ after)

theorem close?_append_right {closer : Closer} (hn : closer.Named) (fresh : Bool) {cs : List Char}
    (h : '\n' ∈ cs) (after : List Char) :
    close? closer fresh (cs ++ after) = (close? closer fresh cs).map (Event.extend after) := by
  cases closer with
  | doubleQuote =>
    simp only [close?, strip?_append_right h (show '\n' ∉ [Quoted.double].dropLast by decide)]
    cases strip? [Quoted.double] cs <;> rfl
  | backtick =>
    simp only [close?, strip?_append_right h (show '\n' ∉ [Quoted.back].dropLast by decide)]
    cases strip? [Quoted.back] cs <;> rfl
  | label label =>
    simp only [close?, Heredoc.closeAt?_append_right hn h]
    split
    · cases Heredoc.closeAt? label cs <;> rfl
    · rfl

theorem key?_append_right {cs : List Char} (h : '\n' ∈ cs) (after : List Char) :
    key? (cs ++ after) = (key? cs).map fun found => (found.1, found.2.1, found.2.2 ++ after) := by
  cases cs with
  | nil => cases h
  | cons c cs =>
    by_cases hc : c = '\n'
    · subst hc
      rfl
    · have hcs : '\n' ∈ cs := (List.mem_cons.1 h).resolve_left (Ne.symm hc)
      simp only [List.cons_append, key?, headIs_append (List.ne_nil_of_mem hcs),
        takeWhile_append_of_mem (p := Char.isDigit) rfl hcs,
        dropWhile_append_of_mem (p := Char.isDigit) rfl hcs,
        takeWhile_append_of_mem (p := isNameChar) rfl hcs,
        dropWhile_append_of_mem (p := isNameChar) rfl hcs]
      repeat' split
      all_goals rfl

/-- The character stands in no name and is no mark of a variable, a key or a member. -/
def Foreign (a : Char) : Prop :=
  isNameChar a = false ∧ a ∉ ['$', '-', '>', '?', '[', ']']

theorem foreign_newline : Foreign '\n' :=
  ⟨rfl, by decide⟩

theorem foreign_backslash : Foreign '\\' :=
  ⟨rfl, by decide⟩

theorem Foreign.notMem_takeWhile {a : Char} (ha : Foreign a) (cs : List Char) :
    a ∉ cs.takeWhile isNameChar := by
  intro hmem
  have hall : isNameChar a = true := List.all_eq_true.1 List.all_takeWhile _ hmem
  rw [ha.1] at hall
  cases hall

theorem key?_notMem {a : Char} (ha : Foreign a) {cs : List Char}
    {key : Kind × List Char × List Char} (h : key? cs = some key) : a ∉ key.2.1 := by
  have hdigit : a.isDigit = false := (Bool.or_eq_false_iff.1 ha.1).2
  have hdigits : ∀ ds : List Char, a ∉ ds.takeWhile Char.isDigit := by
    intro ds hmem
    have hall : a.isDigit = true := List.all_eq_true.1 List.all_takeWhile _ hmem
    rw [hdigit] at hall
    cases hall
  have hminus : a ≠ '-' := fun he => ha.2 (by simp [he])
  have hdollar : a ≠ '$' := fun he => ha.2 (by simp [he])
  unfold key? at h
  split at h
  · cases h
  · next c cs =>
    split at h
    · next hc =>
      split at h
      · cases h
        simp [hc, hminus, hdigits]
      · cases h
    · split at h
      · next hc =>
        cases h
        have hne : a ≠ c := by
          rintro rfl
          rw [hdigit] at hc
          cases hc
        simp [hne, hdigits]
      · split at h
        · next hc =>
          split at h
          · cases h
            simp [hc, hdollar, ha.notMem_takeWhile]
          · cases h
        · split at h
          · next hc =>
            cases h
            have hne : a ≠ c := by
              rintro rfl
              have hname := isNameChar_of_isNameStart hc
              rw [ha.1] at hname
              cases hname
            simp [hne, ha.notMem_takeWhile]
          · cases h

theorem offset?_append_right {cs : List Char} (h : '\n' ∈ cs) (after : List Char) :
    offset? (cs ++ after) = (offset? cs).map fun found => (found.1, found.2 ++ after) := by
  unfold offset?
  rw [strip?_append_right h (by decide)]
  cases hs : strip? ['['] cs with
  | none => rfl
  | some inside =>
    have hinside := newline_mem_of_strip? h (by decide) hs
    simp only [Option.map_some, key?_append_right hinside]
    cases hk : key? inside with
    | none => rfl
    | some found =>
      obtain ⟨kind, text, rest⟩ := found
      have hinline : '\n' ∉ text := key?_notMem foreign_newline hk
      have hrest : '\n' ∈ rest :=
        newline_mem_of_append (by rw [(key?_append hk).1]; exact hinside) hinline
      simp only [Option.map_some, strip?_append_right hrest (show '\n' ∉ [']'].dropLast by decide)]
      cases strip? [']'] rest <;> rfl

theorem member?_append_right {kind : Grammar} {arrow cs : List Char} (h : '\n' ∈ cs)
    (ha : '\n' ∉ arrow) (after : List Char) :
    member? kind arrow (cs ++ after)
      = (member? kind arrow cs).map fun found => (found.1, found.2 ++ after) := by
  unfold member?
  rw [strip?_append_right h fun hmem => ha (List.dropLast_subset _ hmem)]
  cases hs : strip? arrow cs with
  | none => rfl
  | some name =>
    have hname := newline_mem_of_strip? h ha hs
    simp only [Option.map_some, headIs_append (List.ne_nil_of_mem hname),
      takeWhile_append_of_mem (p := isNameChar) rfl hname,
      dropWhile_append_of_mem (p := isNameChar) rfl hname]
    split <;> rfl

theorem access_append_right {cs : List Char} (h : '\n' ∈ cs) (after : List Char) :
    access (cs ++ after) = ((access cs).1, (access cs).2 ++ after) := by
  unfold access
  rw [offset?_append_right h, member?_append_right h (by decide),
    member?_append_right h (by decide)]
  cases offset? cs with
  | some found => rfl
  | none =>
    cases member? .arrow ['-', '>'] cs with
    | some found => rfl
    | none => cases member? .nullsafeArrow ['?', '-', '>'] cs <;> rfl

theorem braced_append_right {cs : List Char} (h : '\n' ∈ cs) (after : List Char) :
    braced (cs ++ after) = ((braced cs).1, (braced cs).2 ++ after) := by
  have hrest := mem_dropWhile (p := isNameChar) rfl h
  simp only [braced, takeWhile_append_of_mem (p := isNameChar) rfl h,
    dropWhile_append_of_mem (p := isNameChar) rfl h, headIs_append (List.ne_nil_of_mem h),
    headIs_append (List.ne_nil_of_mem hrest)]
  split <;> rfl

theorem interpolation?_append_right {cs : List Char} (h : '\n' ∈ cs) (after : List Char) :
    interpolation? (cs ++ after) = (interpolation? cs).map (Event.extend after) := by
  match cs with
  | [] => cases h
  | [c] =>
    rw [List.mem_singleton] at h
    subst h
    cases after with
    | nil => rfl
    | cons d after => rfl
  | c :: d :: cs =>
    simp only [List.cons_append, interpolation?]
    split
    · next hc =>
      split
      · next hd =>
        have hname : '\n' ∈ d :: cs := newline_mem_of_append (a := [c]) h (by simp [hc])
        rw [← List.cons_append, takeWhile_append_of_mem (p := isNameChar) rfl hname,
          dropWhile_append_of_mem (p := isNameChar) rfl hname,
          access_append_right (mem_dropWhile rfl hname)]
        rfl
      · split
        · next hd =>
          have hcs : '\n' ∈ cs := newline_mem_of_append (a := [c, d]) h (by simp [hc, hd])
          rw [braced_append_right hcs]
          rfl
        · rfl
    · split <;> rfl

theorem event?_append_right {closer : Closer} (hn : closer.Named) (fresh : Bool) {cs : List Char}
    (h : '\n' ∈ cs) (after : List Char) :
    event? closer fresh (cs ++ after) = (event? closer fresh cs).map (Event.extend after) := by
  rw [event?, event?, close?_append_right hn fresh h, interpolation?_append_right h]
  cases close? closer fresh cs <;> rfl

theorem seek_cons_of_event {closer : Closer} {fresh : Bool} {c : Char} {cs : List Char}
    {event : Event} (he : event? closer fresh (c :: cs) = some event) :
    seek closer fresh (c :: cs) = some ([], event) := by
  cases cs <;> simp [seek, he]

theorem seek_cons_of_ne {closer : Closer} {fresh : Bool} {c : Char} (hb : c ≠ '\\')
    {cs : List Char} (he : event? closer fresh (c :: cs) = none) :
    seek closer fresh (c :: cs)
      = (seek closer (c == '\n') cs).map fun found => (c :: found.1, found.2) := by
  cases cs <;> simp [seek, he, hb]

/-- The next event stays the next. -/
theorem seek_append_right {closer : Closer} (hn : closer.Named) {fresh : Bool}
    {cs text : List Char} {event : Event}
    (hend : ∀ rest, rest <:+ cs → rest ≠ [] → '\n' ∈ rest)
    (h : seek closer fresh cs = some (text, event)) (after : List Char) :
    seek closer fresh (cs ++ after) = some (text, event.extend after) := by
  fun_induction seek closer fresh cs generalizing text with
  | case1 => cases h
  | case2 fresh c cs found he =>
    cases h
    have hmem := hend (c :: cs) (List.suffix_refl _) (List.cons_ne_nil c cs)
    have hevent := event?_append_right hn fresh hmem after
    rw [he, List.cons_append] at hevent
    exact seek_cons_of_event hevent
  | case3 => cases h
  | case4 fresh d ds he ih =>
    obtain ⟨found, hf, hp⟩ := Option.map_eq_some_iff.1 h
    cases hp
    have hmem := hend ('\\' :: d :: ds) (List.suffix_refl _) (List.cons_ne_nil _ _)
    have hevent := event?_append_right hn fresh hmem after
    have hrest := ih (fun rest hr => hend rest
      (hr.trans ((List.suffix_cons d ds).trans (List.suffix_cons _ _)))) hf
    rw [he] at hevent
    simp only [List.cons_append, Option.map_none] at hevent ⊢
    simp [seek, hevent, hrest]
  | case5 fresh c cs he hb ih =>
    obtain ⟨found, hf, hp⟩ := Option.map_eq_some_iff.1 h
    cases hp
    have hmem := hend (c :: cs) (List.suffix_refl _) (List.cons_ne_nil c cs)
    have hevent := event?_append_right hn fresh hmem after
    have hrest := ih (fun rest hr => hend rest (hr.trans (List.suffix_cons c cs))) hf
    rw [he, List.cons_append] at hevent
    rw [List.cons_append, seek_cons_of_ne hb hevent, hrest]
    rfl

end Body

namespace Code

theorem rules_stable : ∀ rule ∈ rules, Rule.Stable rule := by
  intro rule h
  simp only [rules, List.mem_cons, List.not_mem_nil, or_false] at h
  rcases h with rfl | rfl | rfl | rfl | rfl | rfl | rfl | rfl | rfl | rfl | rfl | rfl | rfl | rfl
    | rfl | rfl
  · exact Heredoc.rule_stable
  · exact Sign.cast_stable
  · exact Trivia.spaces_stable
  · exact Trivia.closeTag_stable
  · exact Sign.attribute_stable
  · exact Trivia.lineComment_stable
  · exact Trivia.blockComment_stable
  · exact Sign.variable_stable
  · exact Quoted.singleQuoted_stable
  · exact Quoted.doubleQuoted_stable
  · exact Quoted.backQuoted_stable
  · exact Number.rule_stable
  · exact Sign.separator_stable
  · exact Word.rule_stable
  · exact Sign.operator_stable
  · exact Sign.character_stable

theorem findSome?_rules (previous : Option Kind) {cs : List Char} (h : cs ≠ []) :
    (rules.findSome? fun rule => rule previous cs) = some (scan previous cs) := by
  obtain ⟨rule, hmem, hr⟩ := exists_rule previous h
  have hsome : (rules.findSome? fun rule => rule previous cs).isSome = true :=
    List.findSome?_isSome_iff.2 ⟨rule, hmem, by simp [hr]⟩
  obtain ⟨answer, ha⟩ := Option.isSome_iff_exists.1 hsome
  simp [scan, ha]

/-- A token of program text that ends with a closing tag stays what it is. -/
theorem scan_append_right {previous : Option Kind} {cs : List Char} {found : Scan}
    (h : Sealed cs) (hs : scan previous cs = .ok found) (after : List Char) :
    scan previous (cs ++ after) = .ok (found.extend after) := by
  have hfind := findSome?_rules previous h.ne_nil
  rw [hs] at hfind
  have hstable := rules_stable
  unfold scan
  generalize rules = all at hfind hstable
  have hafter : (all.findSome? fun rule => rule previous (cs ++ after))
      = some (.ok (found.extend after)) := by
    induction all with
    | nil => cases hfind
    | cons rule all ih =>
      rw [List.findSome?_cons] at hfind ⊢
      cases hr : rule previous cs with
      | none =>
        rw [hr] at hfind
        rw [hstable rule List.mem_cons_self previous h (by simp [hr]), hr]
        exact ih hfind fun rule hmem => hstable rule (List.mem_cons_of_mem _ hmem)
      | some answer =>
        rw [hr] at hfind
        cases hfind
        rw [hstable rule List.mem_cons_self previous h (by simp [hr]), hr]
        rfl
  rw [hafter]
  rfl

end Code

namespace Markup

theorem openTag?_append_right {cs : List Char} (h : '\n' ∈ cs) (after : List Char) :
    openTag? (cs ++ after) = (openTag? cs).map fun found => (found.1, found.2 ++ after) := by
  unfold openTag?
  rw [strip?_append_right h (by decide), stripAnyCase?_append_right h (by decide)]
  cases strip? ['<', '?', '='] cs with
  | some rest => rfl
  | none =>
    cases hs : stripAnyCase? ['<', '?', 'p', 'h', 'p'] cs with
    | none => rfl
    | some found =>
      obtain ⟨text, rest⟩ := found
      obtain ⟨happ, hlower⟩ := stripAnyCase?_eq_some hs
      have hrest : '\n' ∈ rest := newline_mem_of_append (happ ▸ h)
        (newline_notMem_of_lower (by rw [hlower]; decide))
      cases rest with
      | nil => cases hrest
      | cons c rest =>
        by_cases hc : isSpace c = true <;> simp [hc]

end Markup

end Lexer

end Listing
