import Listing.Proofs.Bytes.Encoding
import Listing.Proofs.Lookahead

/-!
# Single tokens by their bytes

A cursor behind some lexemes is `Cursor.after`: further on by their size and their newlines, with
the lexemes as new tokens. A function of the scanner that reads a token comes to such a cursor, and
the lexemes are those of the rule for that token. Where the rule enters the body of a string the
scanner goes down into it, and `follow` says so for all rules at once: it is what the scanner has to
do for an answer of a rule. `Agrees` is the statement about one function and one rule.

The lemmas of this module are one for each function, in the order in which the scanner has them.
-/

namespace Listing.Bytes

open Text Lexer

/-! ## The cursor -/

theorem ok_bind {α β : Type} (a : α) (f : α → Checked β) : (Except.ok a >>= f) = f a := rfl

theorem error_bind {α β : Type} (fault : Fault) (f : α → Checked β) :
    ((Except.error fault : Checked α) >>= f) = .error fault := rfl

/-- The token with its text in bytes. -/
def Token.of (token : Listing.Token) : Token :=
  ⟨token.kind, encode token.text.toList, token.line⟩

namespace Cursor

/-- The cursor behind some lexemes, which are now tokens. -/
def after (cursor : Cursor) (lexemes : List Lexeme) : Cursor :=
  { cursor with
    pos := cursor.pos + size (Lexeme.spell lexemes)
    line := cursor.line + newlines (Lexeme.spell lexemes)
    tokens := cursor.tokens ++ (Listing.Token.place cursor.line lexemes).map Token.of }

@[simp]
theorem after_pos (cursor : Cursor) (lexemes : List Lexeme) :
    (cursor.after lexemes).pos = cursor.pos + size (Lexeme.spell lexemes) := rfl

@[simp]
theorem after_line (cursor : Cursor) (lexemes : List Lexeme) :
    (cursor.after lexemes).line = cursor.line + newlines (Lexeme.spell lexemes) := rfl

@[simp]
theorem after_inCode (cursor : Cursor) (lexemes : List Lexeme) :
    (cursor.after lexemes).inCode = cursor.inCode := rfl

@[simp]
theorem after_nil (cursor : Cursor) : cursor.after [] = cursor := by
  simp [after, Listing.Token.place, newlines]

@[simp]
theorem after_after (cursor : Cursor) (front back : List Lexeme) :
    (cursor.after front).after back = cursor.after (front ++ back) := by
  simp [after, Listing.Token.place_append, Nat.add_assoc]

theorem previous_after_one (cursor : Cursor) (lexeme : Lexeme) :
    (cursor.after [lexeme]).previous
      = if lexeme.kind.isSignificant then some lexeme.kind else cursor.previous := by
  simp only [previous, after, Listing.Token.place, List.map_cons, List.map_nil,
    List.reverse_append, List.reverse_cons, List.reverse_nil, List.nil_append, List.cons_append,
    Token.of, List.find?_cons]
  split <;> simp_all

theorem previous_after (cursor : Cursor) (lexemes : List Lexeme) :
    (cursor.after lexemes).previous = State.significant cursor.previous lexemes := by
  induction lexemes generalizing cursor with
  | nil => simp [State.significant]
  | cons lexeme lexemes ih =>
    rw [← List.singleton_append, ← after_after, ih, previous_after_one]
    rfl

theorem getLast?_tokens_after_one (cursor : Cursor) (last : Lexeme) :
    (cursor.after [last]).tokens.getLast? = some ⟨last.kind, encode last.text, cursor.line⟩ := by
  simp [after, Listing.Token.place, Token.of]

theorem getLast?_tokens_after (cursor : Cursor) (lexemes : List Lexeme) (last : Lexeme) :
    (cursor.after (lexemes ++ [last])).tokens.getLast?
      = some ⟨last.kind, encode last.text, (cursor.after lexemes).line⟩ := by
  rw [← after_after, getLast?_tokens_after_one]

end Cursor

variable {src : List UInt8} {cursor : Cursor} {cs text rest : List Char}

/-- The text in front of the cursor becomes a token. -/
theorem At.emit (text : List Char) (h : At src cursor.pos (text ++ rest)) {stop : Nat}
    (hstop : stop = cursor.pos + size text) (kind : Kind) :
    Bytes.emit src kind stop cursor = .ok (cursor.after [⟨kind, text⟩]) := by
  rw [Bytes.emit, hstop, h.cut text, ok_bind, newlines_encode]
  simp [Cursor.after, Listing.Token.place, Token.of]
  rfl

theorem At.emit_while (h : At src cursor.pos cs) {p : Char → Bool} (hp : Uniform p) (kind : Kind) :
    Bytes.emit src kind (Bytes.scanWhile src cursor.pos p) cursor
      = .ok (cursor.after [⟨kind, cs.takeWhile p⟩]) := by
  rw [← List.takeWhile_append_dropWhile (p := p) (l := cs)] at h
  exact At.emit _ h (by rw [h.scanWhile hp, List.takeWhile_append_dropWhile]) kind

theorem headIs_beq {a : Char} : headIs (· == a) cs = true ↔ ∃ rest, cs = a :: rest := by
  cases cs <;> simp [headIs]

/-! The place behind what was read. -/

theorem At.after (lexeme : Lexeme) (h : At src cursor.pos (lexeme.text ++ rest)) :
    At src (cursor.after [lexeme]).pos rest := by
  simpa using h.append lexeme.text

theorem At.after_ofText (kind : Kind) (h : At src cursor.pos (text ++ rest)) :
    At src (cursor.after (Lexeme.ofText kind text)).pos rest := by
  simpa using h.append text

/-- Text up to a place ahead, or nothing where there is none. -/
theorem At.flush (h : At src cursor.pos (text ++ rest)) (kind : Kind) :
    Bytes.flush src kind (cursor.pos + size text) cursor
      = .ok (cursor.after (Lexeme.ofText kind text)) := by
  rw [Bytes.flush]
  cases text with
  | nil => simp [Lexeme.ofText]
  | cons c text =>
    have := size_pos (List.cons_ne_nil c text)
    rw [if_pos (by omega), At.emit _ h rfl]
    rfl

/-! ## What a rule's answer asks for -/

/-- What was left open, with a label in bytes. -/
def Construct.of : Unterminated → Construct
  | .string => .string
  | .comment => .comment
  | .heredoc label => .heredoc (encode label.toList)
  | .interpolation => .interpolation

/-- What ends the body. -/
def Terminator.of : Closer → Terminator
  | .doubleQuote => .quote Quoted.double
  | .backtick => .quote Quoted.back
  | .label label => .heredoc (encode label.chars)

/-- The mark that closes a body, in front of which reading the body stops. -/
def closeBody (src : List UInt8) (closer : Closer) (line : Nat) (cursor : Cursor) :
    Checked Cursor :=
  match closer with
  | .doubleQuote | .backtick => emit src .punct (cursor.pos + 1) cursor
  | .label label => lexHeredocEnd src (encode label.chars) line cursor

/-- The scanner after a token of program text, by the answer of the rule that reads it. -/
def follow (src : List UInt8) (encapsed : Terminator → Nat → Cursor → Checked Cursor)
    (cursor : Cursor) : Except Unterminated Scan → Checked Cursor
  | .error construct => .error (.unterminated (.of construct) cursor.line)
  | .ok scan =>
    match scan.turn with
    | .stay => .ok (cursor.after scan.lexemes)
    | .leave => .ok { cursor.after scan.lexemes with inCode := false }
    | .enter closer => do
      let inner ← encapsed (.of closer) cursor.line (cursor.after scan.lexemes)
      closeBody src closer cursor.line inner

variable {encapsed : Terminator → Nat → Cursor → Checked Cursor}

/-- The rule reads the text, and the scanner has done as its answer says. -/
def Agrees (src : List UInt8) (encapsed : Terminator → Nat → Cursor → Checked Cursor)
    (rule : Rule) (cursor : Cursor) (cs : List Char) (result : Checked Cursor) : Prop :=
  ∃ answer, rule cursor.previous cs = some answer ∧ result = follow src encapsed cursor answer

/-! ## Spaces, comments and the closing tag -/

theorem isSome_strip?_pair (a b c : Char) (cs : List Char) :
    (strip? [a, b] (c :: cs)).isSome = (c == a && headIs (· == b) cs) := by
  by_cases h : c = a
  · subst h
    cases cs with
    | nil => simp [strip?]
    | cons d cs =>
      by_cases hd : d = b
      · simp [strip?, hd]
      · simp [strip?, hd, Ne.symm hd]
  · simp [strip?, h, Ne.symm h]

theorem lexCloseTag_agrees (h : At src cursor.pos ('?' :: '>' :: rest)) :
    Agrees src encapsed Trivia.closeTag cursor ('?' :: '>' :: rest) (lexCloseTag src cursor) := by
  have hrest : At src (cursor.pos + 2) rest := (h.next (by decide)).next (by decide)
  rw [lexCloseTag, hrest.sees (.beq (by decide))]
  by_cases hn : headIs (· == '\n') rest = true
  · obtain ⟨rest', rfl⟩ := headIs_beq.1 hn
    refine ⟨.ok ⟨[⟨.tag .close, ['?', '>', '\n']⟩], rest', .leave⟩, rfl, ?_⟩
    rw [if_pos hn, At.emit ['?', '>', '\n'] h (rfl : cursor.pos + 3 = _)]
    rfl
  · refine ⟨.ok ⟨[⟨.tag .close, ['?', '>']⟩], rest, .leave⟩, ?_, ?_⟩
    · cases rest with
      | nil => rfl
      | cons c rest =>
        have hc : c ≠ '\n' := by simpa using hn
        simp [Trivia.closeTag, strip?, Ne.symm hc]
    · rw [if_neg hn, At.emit ['?', '>'] h (rfl : cursor.pos + 2 = _)]
      rfl

theorem lineLength_wide_append {bytes : List UInt8} (h : Wide bytes) (more : List UInt8) :
    lineLength (bytes ++ more) = bytes.length + lineLength more := by
  induction bytes with
  | nil => simp
  | cons byte bytes ih =>
    have hb := h byte List.mem_cons_self
    have hn : is (· == '\n') byte = false := (Narrow.beq (by decide)).is_eq_false hb
    have hq : is (· == '?') byte = false := (Narrow.beq (by decide)).is_eq_false hb
    rw [List.cons_append, lineLength, hn, hq, ih fun other hmem => h other (.tail _ hmem)]
    simp only [Bool.false_and, Bool.false_eq_true, if_false, List.length_cons]
    omega

theorem lineLength_encode (cs : List Char) :
    lineLength (encode cs) = size (before Trivia.endsLine cs) := by
  induction cs with
  | nil => rfl
  | cons c cs ih =>
    have hends : Trivia.endsLine (c :: cs)
        = (c == '\n' || (c == '?' && headIs (· == '>') cs)) := by
      rw [Trivia.endsLine, isSome_strip?_pair, headIs_cons]
    rw [before, hends]
    by_cases hc : c.toNat < 0x80
    · rw [encode_cons_of_ascii hc, lineLength, is_toUInt8 _ hc, is_toUInt8 _ hc,
        (At.start cs).sees (.beq (by decide)), ih]
      by_cases hn : (c == '\n') = true
      · simp [hn]
      · by_cases hq : (c == '?' && headIs (· == '>') cs) = true
        · simp [hn, hq]
        · simp [hn, hq, size_cons_of_ascii hc]
    · have hw : 0x80 ≤ c.toNat := by omega
      have hn : (c == '\n') = false := (Narrow.beq (by decide)).eq_false hw
      have hq : (c == '?') = false := (Narrow.beq (by decide)).eq_false hw
      rw [encode_cons, lineLength_wide_append (wide_utf8EncodeChar hw), ih, hn, hq]
      simp [size]

theorem lexLineComment_eq (h : At src cursor.pos cs) :
    lexLineComment src cursor
      = .ok (cursor.after [⟨.comment, before Trivia.endsLine cs⟩]) := by
  rw [lexLineComment, h.drop_eq, lineLength_encode]
  rw [← before_append_onward Trivia.endsLine cs] at h
  exact At.emit _ h rfl .comment

/-- A needle is not found and not in the text, or found where it first is. -/
theorem find_cases {a : Char} (ha : a.toNat < 0x80) {text : List Char} {stop : List Char → Bool}
    (hstop : ∀ ds, stop ds = (strip? (a :: text) ds).isSome) (cs : List Char) :
    (find (encode (a :: text)) (encode cs) = none ∧ onward stop cs = [])
      ∨ ∃ rest, onward stop cs = a :: text ++ rest
        ∧ find (encode (a :: text)) (encode cs) = some (size (before stop cs)) := by
  have hfind := find_encode ha text cs
  rw [← funext hstop] at hfind
  rcases onward_eq_nil_or stop cs with hnil | hsome
  · rw [hnil] at hfind
    exact .inl ⟨hfind, hnil⟩
  · obtain ⟨rest, hrest⟩ := Option.isSome_iff_exists.1 (hstop _ ▸ hsome)
    have hrest := strip?_eq_some hrest
    rw [← hrest] at hfind
    exact .inr ⟨rest, hrest.symm, hfind⟩

theorem isDoc_eq {inside : List Char} (h : At src cursor.pos ('/' :: '*' :: inside)) :
    ((encode ['/', '*', '*']).isPrefixOf (encode ('/' :: '*' :: inside))
        && sees src (cursor.pos + 3) isSpace) = Trivia.isDoc inside := by
  have hinside : At src (cursor.pos + 2) inside := (h.next (by decide)).next (by decide)
  rw [isPrefixOf_encode]
  by_cases hstar : headIs (· == '*') inside = true
  · obtain ⟨more, rfl⟩ := headIs_beq.1 hstar
    have hmore : At src (cursor.pos + 3) more := hinside.next (by decide)
    rw [hmore.sees Narrow.isSpace.uniform]
    cases more <;> rfl
  · cases inside with
    | nil => rfl
    | cons c inside =>
      have hc : c ≠ '*' := by simpa using hstar
      simp [strip?, Ne.symm hc, Trivia.isDoc, hc]

theorem lexBlockComment_agrees {inside : List Char}
    (h : At src cursor.pos ('/' :: '*' :: inside)) :
    Agrees src encapsed Trivia.blockComment cursor ('/' :: '*' :: inside)
      (lexBlockComment src cursor) := by
  have hinside : At src (cursor.pos + 2) inside := (h.next (by decide)).next (by decide)
  have happ := before_append_onward Trivia.closesBlock inside
  have hrule : strip? ['/', '*'] ('/' :: '*' :: inside) = some inside := rfl
  rw [lexBlockComment, hinside.tail, ok_bind]
  rcases find_cases (a := '*') (by decide) (fun _ => rfl : ∀ ds, Trivia.closesBlock ds = _) inside
    with ⟨hfind, hnil⟩ | ⟨rest, hon, hfind⟩
  · refine ⟨.error .comment, ?_, by rw [hfind]; rfl⟩
    rw [Trivia.blockComment, hrule]
    simp [hnil, strip?]
  · rw [hon] at happ
    refine ⟨.ok (.one (if Trivia.isDoc inside then .docComment else .comment)
      (['/', '*'] ++ before Trivia.closesBlock inside ++ ['*', '/']) rest), ?_, ?_⟩
    · rw [Trivia.blockComment, hrule]
      simp [hon, strip?]
    · rw [hfind]
      dsimp only
      rw [h.tail, ok_bind, isDoc_eq h]
      have hcs : (['/', '*'] ++ before Trivia.closesBlock inside ++ ['*', '/']) ++ rest
          = '/' :: '*' :: inside := by
        simpa using happ
      refine At.emit _ (hcs ▸ h) ?_ _
      simp [size_cons_of_ascii]
      omega

/-! ## Casts and operators -/

theorem strip?_singleton (a : Char) (cs : List Char) :
    (strip? [a] cs).isSome = headIs (· == a) cs := by
  cases cs with
  | nil => rfl
  | cons c cs =>
    by_cases h : c = a
    · simp [strip?, h]
    · simp [strip?, h, Ne.symm h]

theorem castAt_cases {i : Nat} {inside : List Char} (h : At src i ('(' :: inside))
    (previous : Option Kind) :
    (Sign.cast previous ('(' :: inside) = none ∧ castAt src i = .ok none)
      ∨ ∃ kind text rest, Sign.cast previous ('(' :: inside) = some (.ok (.one kind text rest))
        ∧ castAt src i = .ok (some (kind, i + size text)) := by
  have hin : At src (i + 1) inside := h.next (by decide)
  have hword := hin.dropWhile isBlank
  have hafter := hword.dropWhile Char.isAlpha
  have htail := hafter.dropWhile isBlank
  have hcut := hword.cut_while Char.isAlpha
  simp only [castAt, hin.scanWhile Narrow.isBlank.uniform, hword.scanWhile Narrow.isAlpha.uniform,
    hafter.scanWhile Narrow.isBlank.uniform, htail.sees (.beq (by decide : ')'.toNat < 0x80)),
    Nat.add_eq_left, size_eq_zero_iff, hcut, ok_bind, letters_encode_takeWhile Narrow.isAlpha,
    Sign.cast]
  generalize inside.takeWhile isBlank = front
  generalize (inside.dropWhile isBlank).takeWhile Char.isAlpha = word
  generalize ((inside.dropWhile isBlank).dropWhile Char.isAlpha).takeWhile isBlank = back
  generalize ((inside.dropWhile isBlank).dropWhile Char.isAlpha).dropWhile isBlank = tail
  have hclose := strip?_singleton ')' tail
  cases hs : strip? [')'] tail with
  | none =>
    have hp : headIs (· == ')') tail = false := by rw [← hclose, hs]; rfl
    refine .inl ⟨by split <;> simp_all, ?_⟩
    rw [hp, if_pos (by simp)]
    rfl
  | some rest =>
    have hp : headIs (· == ')') tail = true := by rw [← hclose, hs]; rfl
    cases hk : Sign.castNamed? (String.ofList (lower word)) with
    | none =>
      refine .inl ⟨rfl, ?_⟩
      split <;> rfl
    | some kind =>
      have hne : word ≠ [] := by
        rintro rfl
        cases hk
      refine .inr ⟨.cast kind, '(' :: front ++ word ++ back ++ [')'], rest, rfl, ?_⟩
      rw [hp, if_neg (by simp [hne])]
      simp only [List.cons_append, size_append, size_cons_of_ascii (by decide : '('.toNat < 0x80),
        size_cons_of_ascii (by decide : ')'.toNat < 0x80), size_nil, pure, Except.pure,
        Except.ok.injEq, Option.some.injEq, Prod.mk.injEq, true_and]
      omega

/-- The first entry that the bytes begin with is the first that the text begins with. -/
theorem find?_operators (entries : List (List Char × Kind)) (cs : List Char) :
    (entries.findSome? fun entry => (strip? entry.1 cs).map fun rest => (entry.2, entry.1, rest))
      = (entries.find? fun entry => (encode entry.1).isPrefixOf (encode cs)).bind fun entry =>
        (strip? entry.1 cs).map fun rest => (entry.2, entry.1, rest) := by
  induction entries with
  | nil => rfl
  | cons entry entries ih =>
    rw [List.findSome?_cons, List.find?_cons, isPrefixOf_encode]
    cases hs : strip? entry.1 cs with
    | none => simpa using ih
    | some rest => simp [hs]

theorem lexOperator_eq {c : Char} (h : At src cursor.pos (c :: cs)) (hc : c.toNat < 0x80) :
    lexOperator src cursor
      = .ok (cursor.after (match Sign.operator? (c :: cs) with
        | some (kind, text, _) => [⟨kind, text⟩]
        | none => [⟨if isPunctuation c then .punct else .badCharacter, [c]⟩])) := by
  rw [lexOperator, h.tail, ok_bind, Sign.operator?, find?_operators]
  cases hf : Sign.operators.find? fun entry => (encode entry.1).isPrefixOf (encode (c :: cs)) with
  | some entry =>
    have hsome := List.find?_some hf
    rw [isPrefixOf_encode] at hsome
    obtain ⟨rest, hrest⟩ := Option.isSome_iff_exists.1 hsome
    rw [Option.bind_some, hrest]
    exact At.emit entry.1 ((strip?_eq_some hrest).symm ▸ h) rfl entry.2
  | none =>
    obtain ⟨byte, hb, his⟩ := (At.start (c :: cs)).index
    have hp : Bytes.is isPunctuation byte = isPunctuation c := by
      rw [encode_cons_of_ascii hc] at hb
      cases hb
      exact is_toUInt8 _ hc
    dsimp only
    rw [hb, ok_bind, hp]
    exact At.emit [c] h (by rw [size_cons_of_ascii hc, size_nil]) _

/-! ## Numbers -/

theorem plain_takeWhile {p : Char → Bool} (h : Narrow p) (cs : List Char) :
    Plain (cs.takeWhile p) :=
  fun c hmem => h c (List.all_eq_true.1 List.all_takeWhile c hmem)

theorem wholeKind_encode {digits : List Char} (h : Plain digits) :
    wholeKind (encode digits) = .ok (Number.wholeKind digits) := by
  cases digits with
  | nil => rfl
  | cons c digits =>
    obtain ⟨hc, hdigits⟩ := plain_cons_iff.1 h
    rw [wholeKind, (At.start (c :: digits)).sees (.beq (by decide)), headIs_cons]
    by_cases hz : c = '0'
    · subst hz
      cases digits with
      | nil => rfl
      | cons d digits =>
        have hd := (At.start ('0' :: d :: digits)).next hc
        have hcut := At.cut (d :: digits) (by rwa [List.append_nil] : At _ _ (d :: digits ++ []))
        have hlen : (encode ('0' :: d :: digits)).length = 0 + 1 + size (d :: digits) :=
          hd.add_size.symm
        have hpos := size_pos (List.cons_ne_nil d digits)
        have hlong : 1 < (encode ('0' :: d :: digits)).length := by omega
        rw [if_pos (by simpa using hlong), hlen, hcut, ok_bind, letters_encode hdigits]
        rfl
    · have hkind : Number.wholeKind (c :: digits) = Number.integerKind 10 0 (c :: digits) := by
        unfold Number.wholeKind
        split
        · next heq => exact absurd (List.cons.inj heq).1 hz
        · rfl
      rw [if_neg (by simp [hz]), letters_encode h, hkind]

/-- Where the digits of an exponent begin, behind its sign. -/
theorem sign_eq {i : Nat} (h : At src i cs) :
    (if sees src i (fun c => c == '+' || c == '-') then i + 1 else i)
      = i + size (Number.sign cs).1 := by
  rw [h.sees (.or (.beq (by decide)) (.beq (by decide)))]
  cases cs with
  | nil => rfl
  | cons c cs =>
    by_cases hplus : c = '+'
    · subst hplus
      rfl
    · by_cases hminus : c = '-'
      · subst hminus
        rfl
      · simp [Number.sign, hplus, hminus]

theorem narrow_toLower_e : Narrow (·.toLower == 'e') := by
  intro c hc
  refine Nat.lt_of_not_le fun hw => ?_
  rw [beq_iff_eq, toLower_of_wide hw] at hc
  subst hc
  exact absurd hw (by decide)

theorem exponentEnd_eq {i : Nat} (h : At src i cs) :
    exponentEnd src i
      = if (Number.exponent cs).1 = [] then none else some (i + size (Number.exponent cs).1) := by
  rw [exponentEnd, h.sees narrow_toLower_e.uniform]
  cases cs with
  | nil => rfl
  | cons c cs =>
    rw [headIs_cons]
    by_cases hc : c.toLower = 'e'
    · have hasc : c.toNat < 0x80 := narrow_toLower_e c (by simpa using hc)
      have hcs := h.next hasc
      have hdigits : At src (i + 1 + size (Number.sign cs).1) (Number.sign cs).2 :=
        At.append _ (by rwa [Number.sign_append])
      dsimp only
      rw [if_pos (by simpa using hc), sign_eq hcs, hdigits.sees Narrow.isDigit.uniform,
        hdigits.scanWhile Narrow.isDigitOrGroup.uniform, Number.exponent]
      by_cases hd : headIs Char.isDigit (Number.sign cs).2 = true
      · simp only [hd, hc, and_self, if_true, List.cons_append, reduceCtorEq, if_false,
          size_cons_of_ascii hasc, size_append, Option.some.injEq]
        omega
      · simp [hd]
    · simp [hc, Number.exponent]

/-- A point and the digits after it. -/
theorem fraction_eq {i : Nat} (h : At src i cs) :
    sees src i (· == '.') = !(Number.fraction cs).1.isEmpty
      ∧ (if sees src i (· == '.') then scanWhile src (i + 1) isDigitOrGroup else i)
        = i + size (Number.fraction cs).1 := by
  rw [h.sees (.beq (by decide))]
  by_cases hdot : headIs (· == '.') cs = true
  · obtain ⟨cs, rfl⟩ := headIs_beq.1 hdot
    have hcs : At src (i + 1) cs := h.next (by decide)
    rw [hdot, if_pos rfl, hcs.scanWhile Narrow.isDigitOrGroup.uniform, Number.fraction,
      size_cons_of_ascii (by decide)]
    exact ⟨rfl, by omega⟩
  · have hnone : Number.fraction cs = ([], cs) := by
      unfold Number.fraction
      split
      · exact absurd rfl hdot
      · rfl
    rw [hnone, if_neg hdot, Bool.eq_false_iff.2 hdot]
    exact ⟨rfl, rfl⟩

theorem lexDecimal_eq (h : At src cursor.pos cs) :
    lexDecimal src cursor
      = .ok (cursor.after [⟨(Number.decimal cs).1, (Number.decimal cs).2.1⟩]) := by
  have hwhole := h.dropWhile isDigitOrGroup
  have hpoint : At src (cursor.pos + size (cs.takeWhile isDigitOrGroup)
      + size (Number.fraction (cs.dropWhile isDigitOrGroup)).1)
      (Number.fraction (cs.dropWhile isDigitOrGroup)).2 :=
    At.append _ (by rwa [Number.fraction_append])
  obtain ⟨hsees, hstop⟩ := fraction_eq hwhole
  have hcut := h.cut_while isDigitOrGroup
  have hemit : ∀ kind stop, stop = cursor.pos + size (Number.decimal cs).2.1 →
      emit src kind stop cursor = .ok (cursor.after [⟨kind, (Number.decimal cs).2.1⟩]) :=
    fun kind stop hs => At.emit _ ((Number.decimal_append cs).symm ▸ h) hs kind
  simp only [lexDecimal, h.scanWhile Narrow.isDigitOrGroup.uniform, hstop, exponentEnd_eq hpoint]
  rw [hsees]
  simp only [Number.decimal] at hemit ⊢
  by_cases hpow : (Number.exponent (Number.fraction (cs.dropWhile isDigitOrGroup)).2).1 = []
  · rw [if_pos hpow]
    simp only [hpow, List.append_nil, List.isEmpty_nil, Bool.and_true] at hemit ⊢
    by_cases hfrac : (Number.fraction (cs.dropWhile isDigitOrGroup)).1 = []
    · simp only [hfrac, List.isEmpty_nil, Bool.not_true, Bool.false_eq_true, if_false,
        List.append_nil, if_true, size_nil, Nat.add_zero] at hemit ⊢
      rw [hcut, ok_bind, wholeKind_encode (plain_takeWhile Narrow.isDigitOrGroup cs), ok_bind]
      exact hemit _ _ rfl
    · have hf : (Number.fraction (cs.dropWhile isDigitOrGroup)).1.isEmpty = false := by
        simpa using hfrac
      simp only [hf, Bool.not_false, if_true, Bool.false_eq_true, if_false]
      exact hemit _ _ (by rw [size_append, Nat.add_assoc])
  · have hp : (Number.exponent (Number.fraction (cs.dropWhile isDigitOrGroup)).2).1.isEmpty
        = false := by
      simpa using hpow
    simp only [if_neg hpow, hp, Bool.and_false, Bool.false_eq_true, if_false]
    exact hemit _ _ (by rw [size_append, size_append]; omega)

theorem radix?_of_wide {c : Char} (h : 0x80 ≤ c.toNat) : Number.radix? c = none := by
  rw [Number.radix?, toLower_of_wide h]
  split
  · exact absurd h (by decide)
  · exact absurd h (by decide)
  · exact absurd h (by decide)
  · rfl

/-- The base is announced by the byte after a leading zero. -/
theorem radix_eq {i : Nat} (h : At src i cs) :
    (src[i]?.bind fun byte => Number.radix? (Char.ofUInt8 byte)) = cs.head?.bind Number.radix? := by
  rw [h.getElem?_eq]
  cases cs with
  | nil => rfl
  | cons c cs =>
    by_cases hc : c.toNat < 0x80
    · simp [encode_cons_of_ascii hc, ofUInt8_toUInt8 hc]
    · have hw : 0x80 ≤ c.toNat := by omega
      obtain ⟨byte, bytes, he, hb⟩ := encode_cons_of_wide hw cs
      rw [he, List.head?_cons, Option.bind_some, List.head?_cons, Option.bind_some,
        radix?_of_wide hw, radix?_of_wide (by rwa [toNat_ofUInt8])]

theorem lexNumber_eq {c : Char} (h : At src cursor.pos (c :: cs)) :
    lexNumber src cursor
      = .ok (cursor.after [⟨(Number.split (c :: cs)).1, (Number.split (c :: cs)).2.1⟩]) := by
  obtain ⟨byte, hb, his⟩ := h.index
  rw [lexNumber, hb, ok_bind, his _ (.beq (by decide))]
  by_cases hz : c = '0'
  · subst hz
    have hcs := h.next (by decide)
    rw [if_pos (by rfl), radix_eq hcs]
    cases cs with
    | nil => exact lexDecimal_eq h
    | cons letter cs =>
      rw [List.head?_cons, Option.bind_some, Number.split, Number.based?]
      cases hr : Number.radix? letter with
      | none => exact lexDecimal_eq h
      | some radix =>
        have hl : letter.toNat < 0x80 := by
          refine Nat.lt_of_not_le fun hw => ?_
          rw [radix?_of_wide hw] at hr
          cases hr
        have hdigits : At src (cursor.pos + 2) cs := hcs.next hl
        have hcut := hdigits.cut_while (Number.isDigitOf radix)
        simp only [hdigits.scanWhile (Narrow.isDigitOf radix).uniform]
        by_cases hd : cs.takeWhile (Number.isDigitOf radix) = []
        · rw [hd, if_neg (by simp), if_pos (by simp)]
          exact lexDecimal_eq h
        · have hpos := size_pos hd
          rw [if_pos (by omega), if_neg (by simpa using hd), hcut, ok_bind,
            letters_encode (plain_takeWhile (Narrow.isDigitOf radix) cs)]
          rw [← List.takeWhile_append_dropWhile (p := Number.isDigitOf radix) (l := cs)] at h
          refine At.emit ('0' :: letter :: cs.takeWhile (Number.isDigitOf radix)) h ?_ _
          rw [size_cons_of_ascii (by decide), size_cons_of_ascii hl]
          omega
  · have hnone : Number.based? (c :: cs) = none := by
      unfold Number.based?
      split
      · next heq => exact absurd (List.cons.inj heq).1 hz
      · rfl
    rw [if_neg (by simpa using hz), Number.split, hnone]
    exact lexDecimal_eq h

/-! ## Words -/

theorem table_plain : ∀ entry ∈ Word.table, Plain entry.1.toList := by decide

theorem lookup_congr {α β : Type} [BEq α] {a b : α} {entries : List (α × β)}
    (h : ∀ entry ∈ entries, (a == entry.1) = (b == entry.1)) :
    entries.lookup a = entries.lookup b := by
  induction entries with
  | nil => rfl
  | cons entry entries ih =>
    rw [List.lookup_cons, List.lookup_cons, h entry List.mem_cons_self,
      ih fun other hmem => h other (List.mem_cons_of_mem _ hmem)]

/-- A word has the kind that its bytes have. -/
theorem kindAfter_encode (previous : Option Kind) (word : List Char) :
    Word.kindAfter previous (letters (encode word)) = Word.kindAfter previous word := by
  have hclass : lower (letters (encode word)) = "class".toList ↔ lower word = "class".toList :=
    lower_letters_encode_eq_iff (by decide) word
  have hreserved : Word.reserved? (letters (encode word)) = Word.reserved? word := by
    refine lookup_congr fun entry hmem => ?_
    rw [Bool.eq_iff_iff, beq_iff_eq, beq_iff_eq, ← String.toList_inj, ← String.toList_inj,
      String.toList_ofList, String.toList_ofList]
    exact lower_letters_encode_eq_iff (table_plain entry hmem) word
  rw [Word.kindAfter, Word.kindAfter, hreserved]
  simp only [ne_eq, hclass]

theorem size_of_lower {word : List Char} (h : Plain word) (heq : lower cs = word) :
    size cs = word.length := by
  induction cs generalizing word with
  | nil =>
    subst heq
    rfl
  | cons c cs ih =>
    subst heq
    obtain ⟨hc, hcs⟩ := plain_cons_iff.1 h
    have hasc : c.toNat < 0x80 := by
      refine Nat.lt_of_not_le fun hw => ?_
      rw [toLower_of_wide hw] at hc
      omega
    rw [size_cons_of_ascii hasc, ih hcs rfl]
    rfl

/-- There is a run of a class ahead just when it takes bytes. -/
theorem lt_add_size_takeWhile {p : Char → Bool} (i : Nat) (cs : List Char) :
    (decide (i < i + size (cs.takeWhile p))) = headIs p cs := by
  rw [Bool.eq_iff_iff, decide_eq_true_eq, headIs_iff_takeWhile, ne_eq, ← size_eq_zero_iff]
  omega

theorem yieldFromEnd_eq {i : Nat} (h : At src i cs) :
    yieldFromEnd src i = .ok ((Word.from? cs).map fun found => i + size found.1) := by
  have hgap := h.dropWhile isBlank
  have hfrom : lower (letters ((encode (cs.dropWhile isBlank)).take 4)) = ['f', 'r', 'o', 'm']
      ↔ lower ((cs.dropWhile isBlank).take 4) = ['f', 'r', 'o', 'm'] :=
    lower_letters_take_eq_iff (by decide : Plain ['f', 'r', 'o', 'm']) _
  have hstrip : stripAnyCase? "from".toList (cs.dropWhile isBlank)
      = if lower ((cs.dropWhile isBlank).take 4) = ['f', 'r', 'o', 'm'] then
          some ((cs.dropWhile isBlank).take 4, (cs.dropWhile isBlank).drop 4)
        else none := rfl
  simp only [yieldFromEnd, h.scanWhile Narrow.isBlank.uniform, hgap.tail, ok_bind,
    lt_add_size_takeWhile, hfrom, Word.from?, hstrip]
  by_cases hb : headIs isBlank cs = true
  · by_cases hf : lower ((cs.dropWhile isBlank).take 4) = ['f', 'r', 'o', 'm']
    · have hsize : size ((cs.dropWhile isBlank).take 4) = 4 := size_of_lower (by decide) hf
      have hrest : At src (i + size (cs.takeWhile isBlank) + 4) ((cs.dropWhile isBlank).drop 4) := by
        rw [← List.take_append_drop 4 (cs.dropWhile isBlank)] at hgap
        have := hgap.append _
        rwa [hsize] at this
      rw [hrest.sees .isNameChar, if_pos hb, if_pos hf]
      by_cases hn : headIs isNameChar ((cs.dropWhile isBlank).drop 4) = true
      · simp [hn]
        rfl
      · simp [hb, hf, hn, hsize, Nat.add_assoc]
        rfl
    · simp [hf]
      rfl
  · simp [hb]
    rfl

theorem nameFollows_eq {i : Nat} (h : At src i cs) : nameFollows src i = Word.namedAhead cs := by
  have hgap := h.dropWhile isSpace
  simp only [nameFollows, h.scanWhile Narrow.isSpace.uniform, lt_add_size_takeWhile,
    hgap.sees .isNameStart, Word.namedAhead]

theorem lexIdentifier_agrees (h : At src cursor.pos cs) (hs : headIs isNameStart cs = true) :
    Agrees src encapsed Word.rule cursor cs (lexIdentifier src cursor) := by
  have hrest := h.dropWhile isNameChar
  have hemit : ∀ kind, emit src kind (cursor.pos + size (cs.takeWhile isNameChar)) cursor
      = .ok (cursor.after [⟨kind, cs.takeWhile isNameChar⟩]) :=
    fun kind => h.scanWhile .isNameChar ▸ h.emit_while .isNameChar kind
  simp only [lexIdentifier, h.scanWhile .isNameChar, h.cut_while, ok_bind, kindAfter_encode,
    yieldFromEnd_eq hrest, nameFollows_eq hrest, hemit]
  generalize hkind : Word.kindAfter cursor.previous (cs.takeWhile isNameChar) = kind
  split
  · rw [Agrees, Word.rule, if_pos hs]
    dsimp only
    rw [hkind]
    cases hf : Word.from? (cs.dropWhile isNameChar) with
    | none => exact ⟨_, rfl, rfl⟩
    | some found =>
      refine ⟨_, rfl, ?_⟩
      rw [← List.takeWhile_append_dropWhile (p := isNameChar) (l := cs), ← Word.from?_append hf,
        ← List.append_assoc] at h
      have hstop : cursor.pos + size (cs.takeWhile isNameChar) + size found.1
          = cursor.pos + size (cs.takeWhile isNameChar ++ found.1) := by
        rw [size_append, Nat.add_assoc]
      exact h.emit _ hstop _
  · rw [Agrees, Word.rule, if_pos hs]
    dsimp only
    rw [hkind]
    exact ⟨_, rfl, rfl⟩
  · next hyield henum => exact ⟨_, Word.rule_of_kindAfter hs hkind hyield henum, rfl⟩

/-! ## Quoted strings

A backslash skips the byte after it, which may be the first of several of one character. The others
are no ASCII characters, so the scanner walks over them to where the next character begins. -/

/-- No ASCII character is seen in the bytes of others. -/
theorem Wide.is_eq_false {bytes : List UInt8} (h : Wide bytes) {byte : UInt8} (hmem : byte ∈ bytes)
    {a : Char} (ha : a.toNat < 0x80) : is (· == a) byte = false :=
  (Narrow.beq ha).is_eq_false (h byte hmem)

theorem Wide.tail {byte : UInt8} {bytes : List UInt8} (h : Wide (byte :: bytes)) : Wide bytes :=
  fun other hmem => h other (List.mem_cons_of_mem _ hmem)

/-- What a backslash does not skip of the character after it. -/
theorem utf8EncodeChar_skip (d : Char) :
    ∃ byte more, String.utf8EncodeChar d = byte :: more ∧ Wide more
      ∧ size [d] = more.length + 1 := by
  obtain ⟨byte, more, he, -, -⟩ := utf8EncodeChar_eq_cons d
  refine ⟨byte, more, he, ?_, by simp [size, he]⟩
  by_cases hd : d.toNat < 0x80
  · rw [utf8EncodeChar_of_ascii hd] at he
    cases he
    exact fun _ hmem => absurd hmem (by simp)
  · exact (he ▸ wide_utf8EncodeChar (by omega : 0x80 ≤ d.toNat)).tail

section Closing

variable {quote : Char} {byte : UInt8}

theorem closingQuote_cons (hb : is (· == '\\') byte = false) (i : Nat) (bytes : List UInt8) :
    closingQuote quote i (byte :: bytes)
      = if is (· == quote) byte then some i else closingQuote quote (i + 1) bytes := by
  cases bytes <;> simp [closingQuote, hb]

theorem closingQuote_skip (hb : is (· == '\\') byte = true) (i : Nat) (next : UInt8)
    (bytes : List UInt8) :
    closingQuote quote i (byte :: next :: bytes) = closingQuote quote (i + 2) bytes := by
  simp [closingQuote, hb]

variable (hq : quote.toNat < 0x80)
include hq

theorem closingQuote_wide_append {bytes : List UInt8} (h : Wide bytes) (i : Nat)
    (more : List UInt8) :
    closingQuote quote i (bytes ++ more) = closingQuote quote (i + bytes.length) more := by
  induction bytes generalizing i with
  | nil => rfl
  | cons byte bytes ih =>
    have hb := h.is_eq_false List.mem_cons_self (by decide : '\\'.toNat < 0x80)
    rw [List.cons_append, closingQuote_cons hb, h.is_eq_false List.mem_cons_self hq,
      if_neg (by simp), ih h.tail, List.length_cons]
    congr 1
    omega

/-- The closing quote is where the text says. -/
theorem closingQuote_encode (i : Nat) (cs : List Char) :
    closingQuote quote i (encode cs)
      = (Quoted.closingQuote? quote cs).map fun found => i + size found.1 := by
  fun_induction Quoted.closingQuote? quote cs generalizing i with
  | case1 => rfl
  | case2 => rfl
  | case3 d ds ih =>
    obtain ⟨byte, more, he, hmore, hsize⟩ := utf8EncodeChar_skip d
    rw [encode_cons_of_ascii (by decide), encode_cons, he, List.cons_append,
      closingQuote_skip (is_toUInt8 _ (by decide)), closingQuote_wide_append hq hmore, ih,
      Option.map_map]
    refine congrArg (Option.map · _) (funext fun found => ?_)
    simp only [Function.comp_apply]
    rw [size_cons_of_ascii (by decide), size_cons d, hsize]
    omega
  | case4 cs hb =>
    rw [encode_cons_of_ascii hq, closingQuote_cons (by rw [is_toUInt8 _ hq]; simpa using hb),
      is_toUInt8 _ hq, if_pos (by simp)]
    rfl
  | case5 c cs hb hc ih =>
    rw [Option.map_map]
    by_cases hasc : c.toNat < 0x80
    · rw [encode_cons_of_ascii hasc, closingQuote_cons (by rw [is_toUInt8 _ hasc]; simpa using hb),
        is_toUInt8 _ hasc, if_neg (by simpa using hc), ih]
      refine congrArg (Option.map · _) (funext fun found => ?_)
      simp only [Function.comp_apply, size_cons_of_ascii hasc]
      omega
    · rw [encode_cons, closingQuote_wide_append hq (wide_utf8EncodeChar (by omega)), ih]
      refine congrArg (Option.map · _) (funext fun found => ?_)
      simp only [Function.comp_apply, size_cons c found.1, Nat.add_assoc]
      simp [size]

end Closing

section Interpolation

variable {byte : UInt8}

theorem hasInterpolation_cons (hb : is (· == '\\') byte = false) (bytes : List UInt8) :
    hasInterpolation (byte :: bytes)
      = (is (· == '$') byte && sees bytes 0 (fun c => isNameStart c || c == '\x7b')
        || (is (· == '\x7b') byte && sees bytes 0 (· == '$') || hasInterpolation bytes)) := by
  cases bytes <;> simp only [hasInterpolation, hb, Bool.false_eq_true, if_false] <;>
    rw [Bool.if_true_left, Bool.if_true_left, Bool.decide_eq_true, Bool.decide_eq_true]

theorem hasInterpolation_skip (hb : is (· == '\\') byte = true) (next : UInt8)
    (bytes : List UInt8) :
    hasInterpolation (byte :: next :: bytes) = hasInterpolation bytes := by
  simp [hasInterpolation, hb]

theorem hasInterpolation_wide_append {bytes : List UInt8} (h : Wide bytes) (more : List UInt8) :
    hasInterpolation (bytes ++ more) = hasInterpolation more := by
  induction bytes with
  | nil => rfl
  | cons byte bytes ih =>
    have hnone : ∀ a : Char, a.toNat < 0x80 → is (· == a) byte = false :=
      fun a => h.is_eq_false List.mem_cons_self
    rw [List.cons_append, hasInterpolation_cons (hnone '\\' (by decide)),
      hnone '$' (by decide), hnone '\x7b' (by decide), Bool.false_and, Bool.false_and,
      Bool.false_or, Bool.false_or, ih h.tail]

/-- An interpolation is seen in the bytes. -/
theorem hasInterpolation_encode (cs : List Char) :
    hasInterpolation (encode cs) = Quoted.hasInterpolation cs := by
  fun_induction Quoted.hasInterpolation cs with
  | case1 => rfl
  | case2 => rfl
  | case3 d ds ih =>
    obtain ⟨byte, more, he, hmore, -⟩ := utf8EncodeChar_skip d
    rw [encode_cons_of_ascii (by decide), encode_cons, he, List.cons_append,
      hasInterpolation_skip (is_toUInt8 _ (by decide)), hasInterpolation_wide_append hmore, ih]
  | case4 c cs hb ih =>
    rw [← ih, Quoted.beginsInterpolation_cons]
    by_cases hasc : c.toNat < 0x80
    · have hcs := At.start cs
      rw [encode_cons_of_ascii hasc,
        hasInterpolation_cons (by rw [is_toUInt8 _ hasc]; simpa using hb), is_toUInt8 _ hasc,
        is_toUInt8 _ hasc, hcs.sees (.or .isNameStart (.beq (by decide))),
        hcs.sees (.beq (by decide)), Bool.or_assoc]
    · have hw : 0x80 ≤ c.toNat := by omega
      have hd : (c == '$') = false := (Narrow.beq (by decide)).eq_false hw
      have hbrace : (c == '\x7b') = false := (Narrow.beq (by decide)).eq_false hw
      rw [encode_cons, hasInterpolation_wide_append (wide_utf8EncodeChar hw), hd, hbrace]
      rfl

end Interpolation

theorem any_newline_encode (cs : List Char) :
    (encode cs).any (is (· == '\n')) = decide ('\n' ∈ cs) := by
  rw [Bool.eq_iff_iff, List.any_eq_true, decide_eq_true_eq, ← List.countP_pos_iff,
    newlines_encode, newlines, List.count_pos_iff]

/-- A string in which nothing is replaced; `front` is what stands before its opening quote. -/
theorem emitPlain_eq {front body : List Char} {quote : Char} (hq : quote.toNat < 0x80)
    (hline : quote ≠ '\n')
    (h : At src cursor.pos (front ++ (quote :: (body ++ quote :: rest)))) :
    emitPlain src (cursor.pos + size front) (cursor.pos + size front + 1 + size body) cursor
      = .ok (cursor.after (Quoted.plain (front ++ [quote]) body quote)) := by
  have hopen : At src (cursor.pos + size front) ((quote :: body) ++ quote :: rest) := h.append front
  have hspan := hopen.span (quote :: body)
  have hsize : cursor.pos + size front + size (quote :: body)
      = cursor.pos + size front + 1 + size body := by
    rw [size_cons_of_ascii hq]
    omega
  have hmem : ('\n' ∈ quote :: body) ↔ '\n' ∈ body := by simp [Ne.symm hline]
  rw [hsize] at hspan
  rw [emitPlain, hspan, ok_bind, any_newline_encode, Quoted.plain]
  simp only [hmem, decide_eq_true_eq]
  split
  · have hstop : cursor.pos + size front + 1 = cursor.pos + size (front ++ [quote]) := by
      rw [size_append, size_cons_of_ascii hq, size_nil, Nat.add_assoc]
    have hfirst : At src cursor.pos ((front ++ [quote]) ++ (body ++ ([quote] ++ rest))) := by
      simpa using h
    have hbody := hfirst.after ⟨.punct, _⟩
    have hlast := hbody.after ⟨.literal, _⟩
    have hend : cursor.pos + size front + 1 + size body + 1
        = cursor.pos + size (front ++ [quote]) + size body + size [quote] := by
      rw [← hstop, size_cons_of_ascii hq, size_nil]
    rw [hfirst.emit _ hstop, ok_bind, hbody.emit _ (by simp [hstop]), ok_bind,
      hlast.emit _ (by simpa only [Cursor.after_pos, Lexeme.spell_cons, Lexeme.spell_nil,
        List.append_nil] using hend)]
    simp
  · have hwhole : At src cursor.pos ((front ++ [quote] ++ body ++ [quote]) ++ rest) := by
      simpa using h
    refine hwhole.emit _ ?_ _
    simp only [size_append, size_cons_of_ascii hq, size_nil]
    omega

theorem single_ascii : Quoted.single.toNat < 0x80 := by decide

theorem double_ascii : Quoted.double.toNat < 0x80 := by decide

theorem lexSingleQuoted_eq {front inside : List Char}
    (h : At src cursor.pos (front ++ Quoted.single :: inside)) :
    lexSingleQuoted src (size front) cursor
      = match Quoted.closingQuote? Quoted.single inside with
        | none => .error (.unterminated .string cursor.line)
        | some (body, _) =>
          .ok (cursor.after (Quoted.plain (front ++ [Quoted.single]) body Quoted.single)) := by
  have hinside : At src (cursor.pos + size front + 1) inside :=
    (h.append front).next single_ascii
  simp only [lexSingleQuoted, hinside.drop_eq, closingQuote_encode single_ascii]
  cases hc : Quoted.closingQuote? Quoted.single inside with
  | none => rfl
  | some found =>
    rw [← Quoted.closingQuote?_append hc] at h
    exact emitPlain_eq single_ascii (by decide) h

theorem lexDoubleQuoted_eq {front inside : List Char}
    (h : At src cursor.pos (front ++ Quoted.double :: inside)) :
    lexDoubleQuoted src encapsed (size front) cursor
      = match Quoted.closingQuote? Quoted.double inside with
        | none => .error (.unterminated .string cursor.line)
        | some (body, _) =>
          if Quoted.hasInterpolation body then do
            let inner ← encapsed (.of .doubleQuote) cursor.line
              (cursor.after [⟨.punct, front ++ [Quoted.double]⟩])
            closeBody src .doubleQuote cursor.line inner
          else .ok (cursor.after (Quoted.plain (front ++ [Quoted.double]) body Quoted.double)) := by
  have hinside : At src (cursor.pos + size front + 1) inside :=
    (h.append front).next double_ascii
  simp only [lexDoubleQuoted, hinside.drop_eq, closingQuote_encode double_ascii]
  cases hc : Quoted.closingQuote? Quoted.double inside with
  | none => rfl
  | some found =>
    rw [← Quoted.closingQuote?_append hc] at h hinside
    simp only [Option.map_some]
    rw [hinside.span, ok_bind, hasInterpolation_encode]
    split
    · have hfirst : At src cursor.pos
          ((front ++ [Quoted.double]) ++ (found.1 ++ Quoted.double :: found.2)) := by
        simpa using h
      rw [hfirst.emit _ (by simp [size_cons_of_ascii double_ascii, Nat.add_assoc]), ok_bind]
      rfl
    · exact emitPlain_eq double_ascii (by decide) h

theorem lexBacktick_eq {inside : List Char} (h : At src cursor.pos (Quoted.back :: inside)) :
    lexBacktick src encapsed cursor
      = follow src encapsed cursor (.ok ⟨[⟨.punct, [Quoted.back]⟩], inside, .enter .backtick⟩) := by
  rw [lexBacktick, At.emit [Quoted.back] h (rfl : cursor.pos + 1 = _)]
  rfl

end Listing.Bytes
