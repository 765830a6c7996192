import Listing.Proofs.Bytes.Tokens

/-!
# Heredocs and the bodies of strings by their bytes

In the body of a string the scanner looks for a mark byte by byte, and a backslash makes it skip one
byte. If that is the first byte of several, the scanner goes on inside a character. It sees nothing
there that could be a mark (`nextMark_wide_append`), and so it finds the next event where the reader
finds it (`nextMark_encode`).

Where a line begins, the reader remembers it and the scanner looks back by one byte. `lineBegins` is
what it sees.
-/

namespace Listing.Bytes

open Text Lexer

variable {src : List UInt8} {cursor : Cursor} {cs text rest : List Char} {i : Nat}
variable {encapsed : Terminator → Nat → Cursor → Checked Cursor}

/-! ## Heredocs -/

/-- A line closes a label just when its text does. -/
theorem heredocCloseAt_eq (h : At src i cs) (label : Label) :
    heredocCloseAt src i (encode label.chars)
      = .ok ((Heredoc.closeAt? label cs).map fun found => i + size found.1) := by
  have hstart := h.dropWhile isBlank
  simp only [heredocCloseAt, h.scanWhile Narrow.isBlank.uniform, hstart.tail, ok_bind,
    isPrefixOf_encode, Heredoc.closeAt?]
  cases hs : strip? label.chars (cs.dropWhile isBlank) with
  | none => rfl
  | some rest =>
    rw [← strip?_eq_some hs] at hstart
    have hrest : At src (i + size (cs.takeWhile isBlank) + (encode label.chars).length) rest :=
      hstart.append _
    rw [hrest.sees .isNameChar]
    by_cases hn : headIs isNameChar rest = true
    · simp [hn]
      rfl
    · simp [hn, Nat.add_assoc]
      rfl

theorem lexHeredocEnd_eq (h : At src cursor.pos cs) (label : Label) (line : Nat) :
    lexHeredocEnd src (encode label.chars) line cursor
      = match Heredoc.closeAt? label cs with
        | none => .error (.unterminated (.heredoc (encode label.chars)) line)
        | some (text, _) => .ok (cursor.after [⟨.grammar .endHeredoc, text⟩]) := by
  rw [lexHeredocEnd, heredocCloseAt_eq h, ok_bind]
  cases hc : Heredoc.closeAt? label cs with
  | none => rfl
  | some found => exact At.emit found.1 ((Heredoc.closeAt?_append hc).1.symm ▸ h) rfl _

theorem quoteAt_eq (h : At src i cs) :
    quoteAt src i
      = if headIs (· == Quoted.single) cs then some Quoted.single
        else if headIs (· == Quoted.double) cs then some Quoted.double
        else none := by
  rw [quoteAt, h.sees (.beq single_ascii), h.sees (.beq double_ascii)]

theorem labelLineEnd_eq {quote : Option Char} (hq : ∀ c ∈ quote, c.toNat < 0x80)
    (h : At src i cs) :
    labelLineEnd src quote i
      = (strip? (quote.toList ++ ['\n']) cs).map fun _ => i + size (quote.toList ++ ['\n']) := by
  -- the newline, wherever it has to be
  have hline : ∀ {j ds}, At src j ds →
      (if sees src j (· == '\n') then some (j + 1) else none)
        = (strip? ['\n'] ds).map fun _ => j + 1 := by
    intro j ds hj
    rw [hj.sees (.beq (by decide)), ← strip?_singleton]
    cases strip? ['\n'] ds <;> rfl
  cases quote with
  | none => exact hline h
  | some q =>
    have hqa := hq q rfl
    simp only [labelLineEnd, h.sees (.beq hqa), Option.toList_some, List.cons_append,
      List.nil_append]
    by_cases hc : headIs (· == q) cs = true
    · obtain ⟨more, rfl⟩ := headIs_beq.1 hc
      rw [if_pos hc, Option.bind_some, hline (h.next hqa), strip?, if_pos rfl,
        size_cons_of_ascii hqa]
      rfl
    · rw [if_neg hc]
      cases cs with
      | nil => rfl
      | cons c cs =>
        have hqc : q ≠ c := fun heq => hc (by simp [heq])
        rw [strip?, if_neg hqc]
        rfl

/-- The label of a heredoc, behind its quote if there is one. -/
theorem labelAt_eq (quote : Option Char) (hq : ∀ c ∈ quote, c.toNat < 0x80) {more : List Char}
    (h : At src i (quote.toList ++ more)) :
    labelAt src quote (i + size quote.toList)
      = .ok ((Heredoc.labelLine? quote.toList (quote.toList ++ more)).map fun found =>
        ⟨encode found.1.chars, quote == some Quoted.single, i + size found.2.1⟩) := by
  have hmore := h.append quote.toList
  rw [labelAt, hmore.sees .isNameStart, Heredoc.labelLine?, strip?_append]
  cases more with
  | nil => rfl
  | cons c name =>
    by_cases hc : isNameStart c = true
    · have hname := isNameChar_of_isNameStart hc
      have hcut := hmore.cut_while isNameChar
      have hend := hmore.dropWhile isNameChar
      rw [List.takeWhile_cons, if_pos hname] at hcut hend
      rw [List.dropWhile_cons, if_pos hname] at hend
      simp only [headIs_cons, hc, Bool.not_true, Bool.false_eq_true, if_false, if_true,
        hmore.scanWhile .isNameChar, List.takeWhile_cons, hname, hcut, ok_bind,
        labelLineEnd_eq hq hend, Option.map_map]
      refine congrArg (fun f => Except.ok (Option.map f _)) (funext fun after => ?_)
      simp only [Function.comp_apply, Label.chars, Header.mk.injEq, true_and, size_append]
      omega
    · simp [hc]

theorem labelLine?_of_headIs {q : Char} (h : headIs (· == q) cs = false) :
    Heredoc.labelLine? [q] cs = none := by
  have hs := strip?_singleton q cs
  rw [h, Option.isSome_eq_false_iff, Option.isNone_iff_eq_none] at hs
  rw [Heredoc.labelLine?, hs]

/-- The opening line of a heredoc. -/
theorem headerAt_eq (h : At src i cs) :
    headerAt src i
      = .ok ((Heredoc.header? cs).map fun header =>
        ⟨encode header.label.chars, header.raw, i + size header.text⟩) := by
  rw [headerAt, h.tail, ok_bind, isPrefixOf_encode, Heredoc.header?]
  cases hs : strip? ['<', '<', '<'] cs with
  | none => rfl
  | some after =>
    rw [← strip?_eq_some hs] at h
    have hafter : At src (i + 3) after := h.append ['<', '<', '<']
    have hgap := hafter.dropWhile isBlank
    have hlead : ∀ text, i + size (['<', '<', '<'] ++ after.takeWhile isBlank ++ text)
        = i + 3 + size (after.takeWhile isBlank) + size text := by
      intro text
      have hthree : size ['<', '<', '<'] = 3 := rfl
      rw [size_append, size_append, hthree]
      omega
    simp only [Option.isSome_some, Bool.not_true, Bool.false_eq_true, if_false,
      hafter.scanWhile Narrow.isBlank.uniform, quoteAt_eq hgap]
    generalize after.dropWhile isBlank = line at hgap
    -- the first character behind the blanks says which of the three forms it is
    by_cases hsingle : headIs (· == Quoted.single) line = true
    · obtain ⟨more, rfl⟩ := headIs_beq.1 hsingle
      have hlabel := labelAt_eq (some Quoted.single) (by simp [single_ascii]) hgap
      have hdouble : Heredoc.labelLine? [Quoted.double] (Quoted.single :: more) = none := rfl
      have hbare : Heredoc.labelLine? [] (Quoted.single :: more) = none := rfl
      rw [if_pos hsingle, hdouble, hbare]
      refine hlabel.trans ?_
      rw [Option.toList_some, List.singleton_append]
      cases Heredoc.labelLine? [Quoted.single] (Quoted.single :: more) with
      | none => rfl
      | some found =>
        simp only [Option.map_some, hlead]
        rfl
    · rw [if_neg hsingle, labelLine?_of_headIs (Bool.eq_false_iff.2 hsingle)]
      by_cases hdouble : headIs (· == Quoted.double) line = true
      · obtain ⟨more, rfl⟩ := headIs_beq.1 hdouble
        have hlabel := labelAt_eq (some Quoted.double) (by simp [double_ascii]) hgap
        have hbare : Heredoc.labelLine? [] (Quoted.double :: more) = none := rfl
        rw [if_pos hdouble, hbare]
        refine hlabel.trans ?_
        rw [Option.toList_some, List.singleton_append]
        cases Heredoc.labelLine? [Quoted.double] (Quoted.double :: more) with
        | none => rfl
        | some found =>
          simp only [Option.map_some, hlead]
          rfl
      · rw [if_neg hdouble, labelLine?_of_headIs (Bool.eq_false_iff.2 hdouble)]
        refine (labelAt_eq none (by simp) hgap).trans ?_
        rw [Option.toList_none, List.nil_append]
        cases Heredoc.labelLine? [] line with
        | none => rfl
        | some found =>
          simp only [Option.map_some, hlead]
          rfl

/-- A heredoc in which nothing is replaced is closed by the first line that closes its label. -/
theorem untilClose?_false_append {label : Label} {line : List Char} (h : '\n' ∉ line)
    (more : List Char) :
    Heredoc.untilClose? label false (line ++ '\n' :: more)
      = (Heredoc.untilClose? label true more).map fun found =>
        (line ++ '\n' :: found.1, found.2) := by
  induction line with
  | nil => rfl
  | cons c line ih =>
    rw [List.mem_cons, not_or] at h
    have hc : (c == '\n') = false := by simpa using Ne.symm h.1
    rw [List.cons_append, Heredoc.untilClose?, Bool.false_and, if_neg (by simp), hc, ih h.2,
      Option.map_map]
    rfl

theorem untilClose?_false_of_inline {label : Label} (h : '\n' ∉ cs) :
    Heredoc.untilClose? label false cs = none := by
  induction cs with
  | nil => rfl
  | cons c cs ih =>
    rw [List.mem_cons, not_or] at h
    have hc : (c == '\n') = false := by simpa using Ne.symm h.1
    rw [Heredoc.untilClose?, Bool.false_and, if_neg (by simp), hc, ih h.2]
    rfl

theorem untilClose?_true_of_closeAt? {label : Label} (hc : Heredoc.closeAt? label cs = none) :
    Heredoc.untilClose? label true cs = Heredoc.untilClose? label false cs := by
  cases cs with
  | nil => rfl
  | cons c cs => simp [Heredoc.untilClose?, hc]

theorem newline_notMem_before (cs : List Char) : '\n' ∉ before (headIs (· == '\n')) cs := by
  induction cs with
  | nil => simp [before]
  | cons c cs ih =>
    rw [before, headIs_cons]
    split
    · simp
    · next hc =>
      rw [List.mem_cons, not_or]
      exact ⟨fun heq => hc (by simp [← heq]), ih⟩

theorem findHeredocClose_eq (label : Label) {fuel : Nat} (h : At src i cs)
    (hfuel : src.length < i + fuel) :
    findHeredocClose src (encode label.chars) fuel i
      = .ok ((Heredoc.untilClose? label true cs).map fun found => i + size found.1) := by
  induction fuel generalizing i cs with
  | zero => exact absurd h.le_length (by omega)
  | succ fuel ih =>
    rw [findHeredocClose, heredocCloseAt_eq h, ok_bind]
    cases hc : Heredoc.closeAt? label cs with
    | some found =>
      have hhere : Heredoc.untilClose? label true cs = some ([], cs) := by
        obtain ⟨happ, hne⟩ := Heredoc.closeAt?_append hc
        cases cs with
        | nil => exact absurd (List.append_eq_nil_iff.1 happ).1 hne
        | cons c cs => simp [Heredoc.untilClose?, hc]
      rw [hhere]
      rfl
    | none =>
      rw [Option.map_none, untilClose?_true_of_closeAt? hc]
      dsimp only
      rw [h.tail, ok_bind]
      have happ := before_append_onward (headIs (· == '\n')) cs
      have hline := newline_notMem_before cs
      rcases find_cases (a := '\n') (by decide) (fun ds => (strip?_singleton '\n' ds).symm) cs
        with ⟨hfind, hnil⟩ | ⟨more, hon, hfind⟩
      · rw [hnil, List.append_nil] at happ
        rw [happ] at hline
        rw [hfind, untilClose?_false_of_inline hline]
        rfl
      · rw [hfind]
        dsimp only
        rw [hon] at happ
        generalize before (headIs (· == '\n')) cs = line at happ hline
        subst happ
        have hmore : At src (i + size line + 1) more := (h.append line).next (by decide)
        rw [ih hmore (by omega), List.cons_append, List.nil_append,
          untilClose?_false_append hline, Option.map_map]
        refine congrArg (fun f => Except.ok (Option.map f _)) (funext fun found => ?_)
        simp only [Function.comp_apply, size_append, size_cons_of_ascii (by decide : '\n'.toNat < 0x80)]
        omega

/-- A heredoc in which nothing is replaced, or the opening line of another. -/
theorem lexHeredoc_agrees {header : Heredoc.Header} (h : At src cursor.pos cs)
    (hh : Heredoc.header? cs = some header) :
    Agrees src encapsed Heredoc.rule cursor cs
      (lexHeredoc src encapsed
        ⟨encode header.label.chars, header.raw, cursor.pos + size header.text⟩ cursor) := by
  rw [← (Heredoc.header?_append hh).1] at h
  have hrest := h.after ⟨.grammar .startHeredoc, _⟩
  rw [Agrees, Heredoc.rule, hh]
  simp only [lexHeredoc, h.emit _ rfl, ok_bind]
  by_cases hraw : header.raw = true
  · simp only [hraw, if_true]
    rw [findHeredocClose_eq _ hrest (by omega), ok_bind]
    cases hu : Heredoc.untilClose? header.label true header.rest with
    | none =>
      refine ⟨_, rfl, ?_⟩
      simp [follow, Construct.of, error_bind]
    | some found =>
      rw [← Heredoc.untilClose?_append hu] at hrest
      simp only [Option.map_some, hrest.flush, ok_bind,
        lexHeredocEnd_eq (hrest.after_ofText .literal)]
      cases hc : Heredoc.closeAt? header.label found.2 with
      | none =>
        refine ⟨_, rfl, ?_⟩
        simp [follow, Construct.of]
      | some closing =>
        refine ⟨_, rfl, ?_⟩
        simp [follow]
  · simp only [hraw]
    exact ⟨_, rfl, rfl⟩

/-! ## Marks in a body -/

/-- A line begins at `i`: there is a newline before it. -/
def lineBegins (src : List UInt8) (i : Nat) : Bool :=
  decide (0 < i) && sees src (i - 1) (· == '\n')

theorem lineBegins_succ (src : List UInt8) (i : Nat) :
    lineBegins src (i + 1) = sees src i (· == '\n') := by
  simp [lineBegins]

theorem lineBegins_succ_of_wide {byte : UInt8} {bytes : List UInt8}
    (hd : src.drop i = byte :: bytes) (hb : 0x80 ≤ byte.toNat) :
    lineBegins src (i + 1) = false := by
  have hget : src[i]? = some byte := by rw [← List.head?_drop, hd, List.head?_cons]
  rw [lineBegins_succ, sees, hget]
  exact (Narrow.beq (by decide)).is_eq_false hb

/-- Behind bytes that no ASCII character has, no line begins. -/
theorem lineBegins_of_wide {bytes more : List UInt8} (hd : src.drop i = bytes ++ more)
    (hw : Wide bytes) (hne : bytes ≠ []) : lineBegins src (i + bytes.length) = false := by
  have hpos := List.length_pos_iff.2 hne
  obtain ⟨n, hn⟩ : ∃ n, bytes.length = n + 1 := ⟨bytes.length - 1, by omega⟩
  have hget : src[i + n]? = some bytes[n] := by
    rw [← List.getElem?_drop, hd, List.getElem?_append_left (by omega)]
    exact List.getElem?_eq_getElem (by omega)
  rw [hn, ← Nat.add_assoc, lineBegins_succ, sees, hget]
  exact hw.is_eq_false (List.getElem_mem _) (by decide)

/-- A line begins behind a newline only. -/
theorem At.lineBegins {c : Char} (h : At src i (c :: cs)) :
    Bytes.lineBegins src (i + size [c]) = (c == '\n') := by
  by_cases hc : c.toNat < 0x80
  · rw [size_cons_of_ascii hc, size_nil, Nat.zero_add, lineBegins_succ,
      h.sees (.beq (by decide)), headIs_cons]
  · have hw : 0x80 ≤ c.toNat := by omega
    have hd : src.drop i = String.utf8EncodeChar c ++ encode cs := by rw [h.drop_eq, encode_cons]
    have hsize : size [c] = (String.utf8EncodeChar c).length := by simp [size]
    rw [hsize, lineBegins_of_wide hd (wide_utf8EncodeChar hw) String.utf8EncodeChar_ne_nil,
      (Narrow.beq (by decide)).eq_false hw]

theorem closesHeredoc_of_not (terminator : Terminator) (hi : i ≤ src.length)
    (h : lineBegins src i = false) : closesHeredoc src terminator i = .ok false := by
  cases terminator with
  | quote c => rfl
  | heredoc label =>
    rw [closesHeredoc]
    split
    · rfl
    · next hpos =>
      obtain ⟨n, rfl⟩ := Nat.exists_eq_succ_of_ne_zero hpos
      have hlt : n < src.length := hi
      rw [lineBegins_succ, sees, List.getElem?_eq_getElem hlt] at h
      rw [Nat.succ_sub_one, index, List.getElem?_eq_getElem hlt, ok_bind]
      simp only [Option.any_some] at h
      rw [h]
      rfl

/-- The body ends here, by its label. -/
def endsLabel (closer : Closer) (fresh : Bool) (cs : List Char) : Bool :=
  match closer with
  | .label label => fresh && (Heredoc.closeAt? label cs).isSome
  | _ => false

theorem closesHeredoc_eq (h : At src i cs) (closer : Closer) :
    closesHeredoc src (.of closer) i = .ok (endsLabel closer (lineBegins src i) cs) := by
  cases hl : lineBegins src i with
  | false =>
    rw [closesHeredoc_of_not _ h.le_length hl]
    cases closer <;> rfl
  | true =>
    cases closer with
    | doubleQuote => rfl
    | backtick => rfl
    | label label =>
      have hpos : i ≠ 0 := by
        rintro rfl
        cases hl
      obtain ⟨n, rfl⟩ := Nat.exists_eq_succ_of_ne_zero hpos
      have hlt : n < src.length := h.le_length
      rw [lineBegins_succ, sees, List.getElem?_eq_getElem hlt, Option.any_some] at hl
      rw [Terminator.of, closesHeredoc, if_neg hpos, Nat.succ_sub_one, index,
        List.getElem?_eq_getElem hlt]
      dsimp only
      rw [ok_bind, if_pos hl, heredocCloseAt_eq h, ok_bind, Option.isSome_map]
      rfl

section Marks

variable {terminator : Terminator} {byte : UInt8}

theorem nextMark_closes (h : closesHeredoc src terminator i = .ok true) (bytes : List UInt8) :
    nextMark src terminator i (byte :: bytes) = .ok (some (i, .close)) := by
  cases bytes <;> simp [nextMark, h]

theorem nextMark_skip (h : closesHeredoc src terminator i = .ok false)
    (hb : is (· == '\\') byte = true) (next : UInt8) (bytes : List UInt8) :
    nextMark src terminator i (byte :: next :: bytes) = nextMark src terminator (i + 2) bytes := by
  simp [nextMark, h, hb]

theorem nextMark_cons (h : closesHeredoc src terminator i = .ok false)
    (hb : is (· == '\\') byte = false) (bytes : List UInt8) :
    nextMark src terminator i (byte :: bytes)
      = if terminator.isQuote byte then .ok (some (i, .close))
        else if is (· == '$') byte && sees src (i + 1) isNameStart then .ok (some (i, .variable_))
        else if is (· == '$') byte && sees src (i + 1) (· == '\x7b') then
          .ok (some (i, .dollarBrace))
        else if is (· == '\x7b') byte && sees src (i + 1) (· == '$') then .ok (some (i, .brace))
        else nextMark src terminator (i + 1) bytes := by
  cases bytes <;> simp [nextMark, h, hb]

end Marks

/-- The character is the quote that ends the body. -/
def isQuoteOf : Closer → Char → Bool
  | .doubleQuote => (· == Quoted.double)
  | .backtick => (· == Quoted.back)
  | .label _ => fun _ => false

theorem narrow_isQuoteOf (closer : Closer) : Narrow (isQuoteOf closer) := by
  cases closer with
  | doubleQuote => exact .beq (by decide)
  | backtick => exact .beq (by decide)
  | label label => exact fun c h => absurd h (by simp [isQuoteOf])

theorem isQuote_of (closer : Closer) (byte : UInt8) :
    (Terminator.of closer).isQuote byte = is (isQuoteOf closer) byte := by
  cases closer <;> rfl

/-- The scanner walks over bytes that no ASCII character has. -/
theorem nextMark_wide_append (closer : Closer) {bytes : List UInt8} (hw : Wide bytes)
    {more : List UInt8} (hd : src.drop i = bytes ++ more) (hi : i ≤ src.length)
    (hl : lineBegins src i = false) :
    nextMark src (.of closer) i (bytes ++ more)
      = nextMark src (.of closer) (i + bytes.length) more := by
  induction bytes generalizing i with
  | nil => rfl
  | cons byte bytes ih =>
    have hnone : ∀ a : Char, a.toNat < 0x80 → is (· == a) byte = false :=
      fun a => hw.is_eq_false List.mem_cons_self
    have hquote := (narrow_isQuoteOf closer).is_eq_false (hw byte List.mem_cons_self)
    have hd' : src.drop (i + 1) = bytes ++ more := by
      rw [← List.drop_drop, hd]
      rfl
    have hlt : i < src.length := by
      have := congrArg List.length hd
      simp only [List.length_drop, List.length_append, List.length_cons] at this
      omega
    have hl' := lineBegins_succ_of_wide hd (hw byte List.mem_cons_self)
    rw [List.cons_append, nextMark_cons (closesHeredoc_of_not _ hi hl) (hnone _ (by decide)),
      isQuote_of, hquote, hnone '$' (by decide), hnone '\x7b' (by decide),
      ih hw.tail hd' hlt hl', List.length_cons]
    simp only [Bool.false_and, Bool.false_eq_true, if_false]
    congr 1
    omega

/-- The mark for which an event stands. -/
def markOf : Body.Event → Mark
  | .close .. => .close
  | .splice .. => .variable_
  | .hole lexemes _ =>
    if lexemes.any (·.kind == .grammar .dollarCurlyOpen) then .dollarBrace else .brace

theorem map_markOf_close? (closer : Closer) (fresh : Bool) (c : Char) (cs : List Char) :
    (Body.close? closer fresh (c :: cs)).map markOf
      = if endsLabel closer fresh (c :: cs) || isQuoteOf closer c then some .close else none := by
  cases closer with
  | doubleQuote =>
    by_cases hc : c = Quoted.double
    · simp [Body.close?, endsLabel, isQuoteOf, hc, strip?, markOf]
    · simp [Body.close?, endsLabel, isQuoteOf, hc, strip?, Ne.symm hc]
  | backtick =>
    by_cases hc : c = Quoted.back
    · simp [Body.close?, endsLabel, isQuoteOf, hc, strip?, markOf]
    · simp [Body.close?, endsLabel, isQuoteOf, hc, strip?, Ne.symm hc]
  | label label =>
    cases fresh with
    | false => rfl
    | true =>
      cases hc : Heredoc.closeAt? label (c :: cs) <;>
        simp [Body.close?, endsLabel, isQuoteOf, hc, markOf]

theorem map_markOf_interpolation? (c : Char) (cs : List Char) :
    (Body.interpolation? (c :: cs)).map markOf
      = if c == '$' && headIs isNameStart cs then some .variable_
        else if c == '$' && headIs (· == '\x7b') cs then some .dollarBrace
        else if c == '\x7b' && headIs (· == '$') cs then some .brace
        else none := by
  cases cs with
  | nil => simp [Body.interpolation?]
  | cons d cs =>
    by_cases hd : c = '$'
    · subst hd
      by_cases hn : isNameStart d = true
      · simp [Body.interpolation?, hn, markOf]
      · by_cases hb : d = '\x7b'
        · subst hb
          simp [Body.interpolation?, hn, markOf]
        · simp [Body.interpolation?, hn, hb]
    · by_cases hb : c = '\x7b'
      · subst hb
        by_cases hs : d = '$' <;> simp [Body.interpolation?, hs, markOf]
      · simp [Body.interpolation?, hd, hb]

/-- One character of a body. -/
theorem nextMark_char {closer : Closer} {c : Char} (h : At src i (c :: cs))
    (hclose : closesHeredoc src (.of closer) i = .ok false) (hb : c ≠ '\\') :
    nextMark src (.of closer) i (encode (c :: cs))
      = if isQuoteOf closer c then .ok (some (i, .close))
        else match (Body.interpolation? (c :: cs)).map markOf with
          | some mark => .ok (some (i, mark))
          | none => nextMark src (.of closer) (i + size [c]) (encode cs) := by
  rw [map_markOf_interpolation?]
  by_cases hc : c.toNat < 0x80
  · have hcs := h.next hc
    rw [encode_cons_of_ascii hc,
      nextMark_cons hclose (by rw [is_toUInt8 _ hc]; simpa using hb), isQuote_of,
      is_toUInt8 _ hc, is_toUInt8 _ hc, is_toUInt8 _ hc, hcs.sees .isNameStart,
      hcs.sees (.beq (by decide)), hcs.sees (.beq (by decide)), size_cons_of_ascii hc]
    cases c == '$' && headIs isNameStart cs <;> cases c == '$' && headIs (· == '\x7b') cs <;>
      cases c == '\x7b' && headIs (· == '$') cs <;> rfl
  · have hw : 0x80 ≤ c.toNat := by omega
    obtain ⟨byte, more, he, hmore, hsize⟩ := utf8EncodeChar_skip c
    have hbytes := he ▸ wide_utf8EncodeChar hw
    have hd : src.drop i = byte :: (more ++ encode cs) := by rw [h.drop_eq, encode_cons, he]; rfl
    have hd' : src.drop (i + 1) = more ++ encode cs := by rw [← List.drop_drop, hd]; rfl
    have hlt := h.lt_length_iff.2 (List.cons_ne_nil c cs)
    have hl := lineBegins_succ_of_wide hd (hbytes byte List.mem_cons_self)
    have hnone : ∀ a : Char, a.toNat < 0x80 → is (· == a) byte = false :=
      fun a => hbytes.is_eq_false List.mem_cons_self
    have hchar : ∀ a : Char, a.toNat < 0x80 → (c == a) = false :=
      fun a ha => (Narrow.beq ha).eq_false hw
    rw [encode_cons, he, List.cons_append, nextMark_cons hclose (hnone _ (by decide)), isQuote_of,
      (narrow_isQuoteOf closer).is_eq_false (hbytes byte List.mem_cons_self),
      (narrow_isQuoteOf closer).eq_false hw, hnone '$' (by decide), hnone '\x7b' (by decide),
      hchar '$' (by decide), hchar '\x7b' (by decide), nextMark_wide_append closer hmore hd' hlt hl,
      hsize]
    simp only [Bool.false_and, Bool.false_eq_true, if_false]
    congr 1
    omega

theorem map_markOf_event? (closer : Closer) (fresh : Bool) (c : Char) (cs : List Char) :
    (Body.event? closer fresh (c :: cs)).map markOf
      = if endsLabel closer fresh (c :: cs) then some .close
        else if isQuoteOf closer c then some .close
        else (Body.interpolation? (c :: cs)).map markOf := by
  have hclose := map_markOf_close? closer fresh c cs
  have hor : (Body.event? closer fresh (c :: cs)).map markOf
      = ((Body.close? closer fresh (c :: cs)).map markOf).or
        ((Body.interpolation? (c :: cs)).map markOf) := by
    rw [Body.event?]
    cases Body.close? closer fresh (c :: cs) <;> rfl
  rw [hor, hclose]
  cases endsLabel closer fresh (c :: cs) with
  | true => rfl
  | false => cases isQuoteOf closer c <;> rfl

section Seek

variable {closer : Closer} {fresh : Bool} {c : Char}

theorem closesHeredoc_fresh (h : At src i cs)
    (hfresh : ∀ label, closer = .label label → lineBegins src i = fresh) :
    closesHeredoc src (.of closer) i = .ok (endsLabel closer fresh cs) := by
  rw [closesHeredoc_eq h]
  cases closer with
  | doubleQuote => rfl
  | backtick => rfl
  | label label => rw [hfresh label rfl]

/-- An event of the text is a mark in its bytes. -/
theorem nextMark_of_event? {event : Body.Event} (h : At src i (c :: cs))
    (hfresh : ∀ label, closer = .label label → lineBegins src i = fresh)
    (he : Body.event? closer fresh (c :: cs) = some event) :
    nextMark src (.of closer) i (encode (c :: cs)) = .ok (some (i, markOf event)) := by
  have hcloses := closesHeredoc_fresh h hfresh
  have hmark := map_markOf_event? closer fresh c cs
  rw [he, Option.map_some] at hmark
  cases hlabel : endsLabel closer fresh (c :: cs) with
  | true =>
    rw [hlabel] at hcloses hmark
    obtain ⟨byte, more, hc, -, -⟩ := utf8EncodeChar_eq_cons c
    rw [encode_cons, hc, List.cons_append, nextMark_closes hcloses, Option.some.inj hmark]
  | false =>
    rw [hlabel, if_neg (by simp)] at hmark
    have hb : c ≠ '\\' := by
      rintro rfl
      cases closer <;> cases cs <;> cases hmark
    rw [nextMark_char h (hlabel ▸ hcloses) hb]
    split
    · next hq =>
      rw [if_pos hq] at hmark
      rw [Option.some.inj hmark]
    · next hq =>
      rw [if_neg hq] at hmark
      rw [← hmark]

/-- Between events the scanner goes on with the next character. -/
theorem nextMark_of_event?_none (h : At src i (c :: cs))
    (hfresh : ∀ label, closer = .label label → lineBegins src i = fresh)
    (he : Body.event? closer fresh (c :: cs) = none) :
    closesHeredoc src (.of closer) i = .ok false
      ∧ (c ≠ '\\' → nextMark src (.of closer) i (encode (c :: cs))
        = nextMark src (.of closer) (i + size [c]) (encode cs)) := by
  have hcloses := closesHeredoc_fresh h hfresh
  have hmark := map_markOf_event? closer fresh c cs
  rw [he, Option.map_none] at hmark
  cases hlabel : endsLabel closer fresh (c :: cs) with
  | true =>
    rw [hlabel] at hmark
    cases hmark
  | false =>
    rw [hlabel, if_neg (by simp)] at hmark
    refine ⟨hlabel ▸ hcloses, fun hb => ?_⟩
    rw [nextMark_char h (hlabel ▸ hcloses) hb]
    split at hmark
    · cases hmark
    · next hq => rw [if_neg hq, ← hmark]

/-- A backslash and the character after it, of which it skips the first byte. -/
theorem nextMark_escaped {d : Char} (hcloses : closesHeredoc src (.of closer) i = .ok false)
    (hd : At src (i + 1) (d :: cs)) :
    nextMark src (.of closer) i ('\\'.toUInt8 :: encode (d :: cs))
      = nextMark src (.of closer) (i + 1 + size [d]) (encode cs) := by
  obtain ⟨byte, more, he, hmore, hsize⟩ := utf8EncodeChar_skip d
  have hdrop : src.drop (i + 1) = byte :: (more ++ encode cs) := by
    rw [hd.drop_eq, encode_cons, he]
    rfl
  rw [encode_cons, he, List.cons_append, nextMark_skip hcloses (is_toUInt8 _ (by decide))]
  by_cases hc : d.toNat < 0x80
  · rw [utf8EncodeChar_of_ascii hc] at he
    cases he
    rw [size_cons_of_ascii hc]
    rfl
  · have hw := wide_utf8EncodeChar (by omega : 0x80 ≤ d.toNat)
    have hlt := hd.lt_length_iff.2 (List.cons_ne_nil d cs)
    rw [he] at hw
    have hmoreAt : src.drop (i + 1 + 1) = more ++ encode cs := by
      rw [← List.drop_drop, hdrop]
      rfl
    rw [nextMark_wide_append closer hmore hmoreAt hlt
      (lineBegins_succ_of_wide hdrop (hw byte List.mem_cons_self)), hsize]
    congr 1
    omega

/-- The scanner finds what is next in a body where the text has it. -/
theorem nextMark_encode (h : At src i cs)
    (hfresh : ∀ label, closer = .label label → lineBegins src i = fresh) :
    nextMark src (.of closer) i (encode cs)
      = .ok ((Body.seek closer fresh cs).map fun found => (i + size found.1, markOf found.2)) := by
  fun_induction Body.seek closer fresh cs generalizing i with
  | case1 => rfl
  | case2 fresh c cs event he => exact nextMark_of_event? h hfresh he
  | case3 fresh he =>
    have hcloses := (nextMark_of_event?_none h hfresh he).1
    have hb : is (· == '\\') '\\'.toUInt8 = true := is_toUInt8 _ (by decide)
    rw [encode_cons_of_ascii (by decide)]
    simp [nextMark, hcloses, hb]
  | case4 fresh d ds he ih =>
    have hcloses := (nextMark_of_event?_none h hfresh he).1
    have hd : At src (i + 1) (d :: ds) := h.next (by decide)
    rw [encode_cons_of_ascii (by decide), nextMark_escaped hcloses hd,
      ih (hd.append [d]) (fun _ _ => hd.lineBegins), Option.map_map]
    refine congrArg (fun f => Except.ok (Option.map f _)) (funext fun found => ?_)
    have hback : '\\'.toNat < 0x80 := by decide
    simp only [Function.comp_apply, size_cons_of_ascii hback, size_cons d found.1, Prod.mk.injEq,
      and_true]
    omega
  | case5 fresh c cs he hb ih =>
    rw [(nextMark_of_event?_none h hfresh he).2 hb, ih (h.append [c]) (fun _ _ => h.lineBegins),
      Option.map_map]
    refine congrArg (fun f => Except.ok (Option.map f _)) (funext fun found => ?_)
    simp only [Function.comp_apply, size_cons c found.1, Nat.add_assoc]

end Seek

/-! ## Interpolations -/

/-- A run of a class behind one character. -/
theorem At.emit_cons_while {c : Char} (h : At src cursor.pos (c :: cs)) (hc : c.toNat < 0x80)
    {p : Char → Bool} (hp : Uniform p) (kind : Kind) :
    Bytes.emit src kind (Bytes.scanWhile src (cursor.pos + 1) p) cursor
      = .ok (cursor.after [⟨kind, c :: cs.takeWhile p⟩]) := by
  have hstop := (h.next hc).scanWhile hp
  rw [← List.takeWhile_append_dropWhile (p := p) (l := cs)] at h
  refine At.emit (c :: cs.takeWhile p) h ?_ kind
  rw [hstop, size_cons_of_ascii hc]
  omega

theorem keyAt_eq (h : At src i cs) :
    keyAt src i = (Body.key? cs).map fun key => (key.1, i + size key.2.1) := by
  rw [keyAt, h.sees (.or (.beq (by decide)) Narrow.isDigit.uniform), h.sees (.beq (by decide)),
    h.sees (.beq (by decide)), h.sees .isNameStart]
  cases cs with
  | nil => rfl
  | cons c cs =>
    rw [headIs_cons, headIs_cons, headIs_cons, headIs_cons, Body.key?]
    by_cases hminus : c = '-'
    · subst hminus
      have hcs := h.next (by decide)
      have hrun := lt_add_size_takeWhile (p := Char.isDigit) (i + 1) cs
      have hsize : i + size ('-' :: cs.takeWhile Char.isDigit)
          = i + 1 + size (cs.takeWhile Char.isDigit) := by
        rw [size_cons_of_ascii (by decide)]
        omega
      simp only [beq_self_eq_true, Bool.true_or, if_true, hcs.scanWhile Narrow.isDigit.uniform]
      by_cases hd : headIs Char.isDigit cs = true
      · rw [if_pos (by simpa [hd] using hrun), if_pos hd, Option.map_some, hsize]
      · rw [if_neg (by simpa [hd] using hrun), if_neg hd]
        rfl
    · have hm : (c == '-') = false := by simpa using hminus
      simp only [hminus, if_false, hm, Bool.false_or, Bool.false_eq_true]
      by_cases hd : c.isDigit = true
      · have hrun := size_pos (List.cons_ne_nil c (cs.takeWhile Char.isDigit))
        simp only [hd, if_true, h.scanWhile Narrow.isDigit.uniform, List.takeWhile_cons]
        rw [if_pos (by omega)]
        rfl
      · rw [if_neg hd, if_neg hd]
        by_cases hs : c = '$'
        · subst hs
          have hcs := h.next (by decide)
          have hsize : i + size ('$' :: cs.takeWhile isNameChar)
              = i + 1 + size (cs.takeWhile isNameChar) := by
            rw [size_cons_of_ascii (by decide)]
            omega
          rw [hcs.sees .isNameStart, hcs.scanWhile .isNameChar]
          by_cases hn : headIs isNameStart cs = true
          · simp only [hn, beq_self_eq_true, Bool.and_self, if_true, Option.map_some, hsize]
          · simp only [hn, Bool.and_false, Bool.false_eq_true, if_false, if_true]
            rfl
        · have hsd : (c == '$') = false := by simpa using hs
          rw [if_neg hs, hsd, Bool.false_and, if_neg (by simp)]
          by_cases hn : isNameStart c = true
          · rw [if_pos hn, if_pos hn, h.scanWhile .isNameChar, List.takeWhile_cons,
              if_pos (isNameChar_of_isNameStart hn)]
            rfl
          · rw [if_neg hn, if_neg hn]
            rfl

theorem lexOffset_eq {inside : List Char} (h : At src cursor.pos ('[' :: inside)) :
    lexOffset src cursor
      = .ok (cursor.after ((Body.offset? ('[' :: inside)).getD ([], '[' :: inside)).1) := by
  have hin : At src (cursor.pos + 1) inside := h.next (by decide)
  have hstrip : strip? ['['] ('[' :: inside) = some inside := rfl
  rw [lexOffset, keyAt_eq hin, Body.offset?, hstrip]
  dsimp only
  cases hk : Body.key? inside with
  | none => simp
  | some key =>
    have happ := (Body.key?_append hk).1
    rw [← happ] at hin
    have hkey := hin.append key.2.1
    simp only [Option.map_some, hkey.sees (.beq (by decide : ']'.toNat < 0x80))]
    rw [← strip?_singleton]
    cases hs : strip? [']'] key.2.2 with
    | none => simp
    | some rest =>
      rw [← happ, ← strip?_eq_some hs] at h
      have hfirst : At src cursor.pos (['['] ++ (key.2.1 ++ ([']'] ++ rest))) := h
      have hsecond := hfirst.after ⟨.punct, _⟩
      have hthird := hsecond.after ⟨key.1, _⟩
      have hopen : cursor.pos + 1 = (cursor.after [⟨.punct, ['[']⟩]).pos := rfl
      have hclose : cursor.pos + 1 + size key.2.1 + 1
          = ((cursor.after [⟨.punct, ['[']⟩]).after [⟨key.1, key.2.1⟩]).pos + size [']'] := by
        rw [hopen, Cursor.after_pos _ [⟨key.1, key.2.1⟩], size_cons_of_ascii (by decide)]
        simp
      rw [Option.isSome_some, if_pos rfl, hfirst.emit _ hopen, ok_bind,
        hsecond.emit _ (congrArg (· + size key.2.1) hopen), ok_bind, hthird.emit _ hclose]
      simp

theorem lexMember_eq {mark : Grammar} {arrow name : List Char} {stop : Nat}
    (hstop : stop = cursor.pos + size arrow) (h : At src cursor.pos (arrow ++ name)) :
    lexMember src mark stop cursor
      = .ok (cursor.after [⟨.grammar mark, arrow⟩, ⟨.name, name.takeWhile isNameChar⟩]) := by
  have hname := h.after ⟨.grammar mark, _⟩
  rw [lexMember, h.emit _ hstop, ok_bind, hname.emit_while .isNameChar]
  simp

/-- The test for an arrow and a name, and the member behind them. -/
theorem ite_lexMember_eq (h : At src cursor.pos cs) (mark : Grammar) (arrow : List Char)
    (others : Checked Cursor) :
    (if (strip? arrow cs).isSome && sees src (cursor.pos + size arrow) isNameStart then
        lexMember src mark (cursor.pos + size arrow) cursor
      else others)
      = match Body.member? mark arrow cs with
        | some found => .ok (cursor.after found.1)
        | none => others := by
  rw [Body.member?]
  cases hs : strip? arrow cs with
  | none => rfl
  | some name =>
    have hcs := strip?_eq_some hs
    have hname := At.append arrow (hcs ▸ h)
    rw [Option.isSome_some, Bool.true_and, hname.sees .isNameStart]
    by_cases hn : headIs isNameStart name = true
    · simp only [hn, if_true]
      exact lexMember_eq rfl (hcs ▸ h)
    · simp only [hn]
      rfl

/-- What a variable takes along. -/
theorem lexAccess_eq (h : At src cursor.pos cs) :
    lexAccess src cursor = .ok (cursor.after (Body.access cs).1) := by
  rw [lexAccess, h.tail, ok_bind, isPrefixOf_encode, isPrefixOf_encode, isPrefixOf_encode,
    Body.access]
  cases hb : strip? ['['] cs with
  | some inside =>
    have hcs : '[' :: inside = cs := strip?_eq_some hb
    subst hcs
    rw [Option.isSome_some, if_pos rfl, lexOffset_eq h]
    cases Body.offset? ('[' :: inside) <;> rfl
  | none =>
    have hoffset : Body.offset? cs = none := by rw [Body.offset?, hb]
    rw [hoffset, Option.isSome_none, if_neg (by simp), Option.none_or]
    refine (ite_lexMember_eq h .arrow ['-', '>'] _).trans ?_
    cases Body.member? .arrow ['-', '>'] cs with
    | some found => rfl
    | none =>
      refine (ite_lexMember_eq h .nullsafeArrow ['?', '-', '>'] _).trans ?_
      cases Body.member? .nullsafeArrow ['?', '-', '>'] cs with
      | some found => rfl
      | none => simp; rfl

theorem lexSimpleInterpolation_eq {d : Char} (h : At src cursor.pos ('$' :: d :: cs)) :
    lexSimpleInterpolation src cursor
      = .ok (cursor.after (⟨.variable_, '$' :: (d :: cs).takeWhile isNameChar⟩
        :: (Body.access ((d :: cs).dropWhile isNameChar)).1)) := by
  have hvar := h.emit_cons_while (by decide) .isNameChar .variable_
  have hrest : At src (cursor.after [⟨.variable_, '$' :: (d :: cs).takeWhile isNameChar⟩]).pos
      ((d :: cs).dropWhile isNameChar) := by
    refine At.after ⟨.variable_, _⟩ ?_
    rwa [List.cons_append, List.takeWhile_append_dropWhile]
  rw [lexSimpleInterpolation, hvar, ok_bind, lexAccess_eq hrest, Cursor.after_after]
  rfl

theorem lexDollarBrace_eq (h : At src cursor.pos ('$' :: '\x7b' :: cs)) :
    lexDollarBrace src cursor
      = .ok (cursor.after (⟨.grammar .dollarCurlyOpen, ['$', '\x7b']⟩ :: (Body.braced cs).1)) := by
  have hopen : At src cursor.pos (['$', '\x7b'] ++ cs) := h
  have hcs := hopen.after ⟨.grammar .dollarCurlyOpen, _⟩
  have hend := hcs.dropWhile isNameChar
  rw [lexDollarBrace, hopen.emit _ (rfl : cursor.pos + 2 = _), ok_bind]
  simp only [hcs.scanWhile .isNameChar, hcs.sees .isNameStart]
  rw [hend.sees (.or (.beq (by decide)) (.beq (by decide))), Body.braced]
  split
  · rw [← hcs.scanWhile .isNameChar, hcs.emit_while .isNameChar, Cursor.after_after]
    rfl
  · rfl

/-! ## Ends of bodies -/

/-- The mark that closes a body. -/
theorem closeBody_eq {closer : Closer} {fresh : Bool} {lexemes : List Lexeme}
    (h : At src cursor.pos cs) (hc : Body.close? closer fresh cs = some (.close lexemes rest))
    (line : Nat) : closeBody src closer line cursor = .ok (cursor.after lexemes) := by
  cases closer with
  | doubleQuote =>
    obtain ⟨after, hs, he⟩ := Option.map_eq_some_iff.1 hc
    cases he
    rw [← strip?_eq_some hs] at h
    exact h.emit _ rfl .punct
  | backtick =>
    obtain ⟨after, hs, he⟩ := Option.map_eq_some_iff.1 hc
    cases he
    rw [← strip?_eq_some hs] at h
    exact h.emit _ rfl .punct
  | label label =>
    rw [Body.close?] at hc
    split at hc
    · obtain ⟨found, hs, he⟩ := Option.map_eq_some_iff.1 hc
      cases he
      rw [closeBody, lexHeredocEnd_eq h, hs]
    · cases hc

end Listing.Bytes
