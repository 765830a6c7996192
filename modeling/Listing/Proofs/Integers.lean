import Mathlib.Data.Nat.Digits.Defs
import Listing.Proofs.Bytes.Encoding
import Listing.Proofs.Shapes

/-!
# Integers and their size

A number without fraction and exponent is an integer, in a base that its first characters tell
(`Number.reading`), and its value is what its digits are worth in that base (`Number.value`). The
reader does not compute the value: it adds up digit after digit and stops where the sum leaves the
range of a signed word. As the sum only grows, it gets there just if the value is out of range
(`Number.integerKind_eq_of_valid`), and so the kind of such a number tells its size
(`number_kind_tells_size`).
-/

namespace Listing

open Text

namespace Lexer.Number

/-! ## What is written -/

/-- What a digit is worth: its place among the digits of base sixteen, whatever its capitals. -/
def worth (c : Char) : Nat :=
  "0123456789abcdef".toList.idxOf c.toLower

/-- What the digits of a text are worth, one by one. Underscores are no digits. -/
def worths (digits : List Char) : List Nat :=
  (digits.filter (· != '_')).map worth

/-- What the digits of a text are worth together. -/
def value (base : Nat) (digits : List Char) : Nat :=
  Nat.ofDigits base (worths digits).reverse

/-- The base in which an integer is written, and its digits. -/
def reading : List Char → Nat × List Char
  | '0' :: letter :: digit :: digits =>
    if letter.toLower = 'x' then (16, digit :: digits)
    else if letter.toLower = 'b' then (2, digit :: digits)
    else if letter.toLower = 'o' then (8, digit :: digits)
    else (8, letter :: digit :: digits)
  | ['0', digit] => (8, [digit])
  | digits => (10, digits)

/-- A run of digits and then the letter of an exponent. -/
def HasExponent (text : List Char) : Prop :=
  ∃ whole letter after, text = whole ++ letter :: after
    ∧ (∀ c ∈ whole, isDigitOrGroup c = true) ∧ letter.toLower = 'e'

/-- A number with neither fraction nor exponent, whose digits its base has. -/
structure IsInteger (text : List Char) : Prop where
  no_point : '.' ∉ text
  no_exponent : ¬HasExponent text
  valid : ∀ c ∈ (reading text).2, c = '_' ∨ worth c < (reading text).1

/-- How an integer is recognized by evaluation, where no letter is that of an exponent. -/
theorem IsInteger.of_all {text : List Char} (hpoint : text.all (· != '.') = true)
    (hexponent : text.all (·.toLower != 'e') = true)
    (hvalid : (reading text).2.all
      (fun c => c == '_' || decide (worth c < (reading text).1)) = true) : IsInteger text where
  no_point hmem := by simpa using List.all_eq_true.1 hpoint _ hmem
  no_exponent := by
    rintro ⟨whole, letter, after, rfl, -, hlower⟩
    have hletter := List.all_eq_true.1 hexponent letter (by simp)
    simp [hlower] at hletter
  valid c hc := by simpa using List.all_eq_true.1 hvalid c hc

/-! ## Digits -/

theorem ascii_of_worth {c : Char} (h : worth c < 16) : c.toNat < 128 := by
  have hmem : c.toLower ∈ "0123456789abcdef".toList := List.idxOf_lt_length_iff.1 h
  have hascii : "0123456789abcdef".toList.all (fun d => decide (d.toNat < 128)) = true := by decide
  have hlower : c.toLower.toNat < 128 := of_decide_eq_true (List.all_eq_true.1 hascii _ hmem)
  by_contra hwide
  rw [Bytes.toLower_of_wide (Nat.le_of_not_lt hwide)] at hlower
  exact hwide hlower

theorem digit?_of_ascii :
    ∀ n < 128, worth (Char.ofNat n) < 16 →
      digit? 16 (Char.ofNat n) = some (worth (Char.ofNat n)) := by decide +kernel

/-- A smaller base has the same digits, as far as it has them. -/
theorem digit?_of_lt {radix radix' d : Nat} {c : Char} (h : digit? radix c = some d)
    (hd : d < radix') : digit? radix' c = some d := by
  unfold digit? at h ⊢
  dsimp only at h ⊢
  split_ifs at h ⊢ <;> simp_all
  all_goals omega

/-- The reader takes a digit for what it is worth. -/
theorem digit?_eq_some {radix : Nat} (hradix : radix ≤ 16) {c : Char} (h : worth c < radix) :
    digit? radix c = some (worth c) := by
  have hhex : worth c < 16 := Nat.lt_of_lt_of_le h hradix
  have hdigit := digit?_of_ascii c.toNat (ascii_of_worth hhex)
  rw [Char.ofNat_toNat] at hdigit
  exact digit?_of_lt (hdigit hhex) h

theorem worths_cons_group (digits : List Char) : worths ('_' :: digits) = worths digits := rfl

theorem worths_cons {c : Char} (h : c ≠ '_') (digits : List Char) :
    worths (c :: digits) = worth c :: worths digits := by
  simp [worths, h]

/-! ## The sum of the digits -/

/-- What the reader adds up is a float just if the value is out of range. -/
theorem integerKind_eq_of_valid {radix : Nat} (hpos : 0 < radix) (hradix : radix ≤ 16)
    {digits : List Char} (hvalid : ∀ c ∈ digits, c = '_' ∨ worth c < radix) {total : Nat}
    (htotal : total < limit) :
    integerKind radix total digits
      = if limit ≤ total * radix ^ (worths digits).length
          + Nat.ofDigits radix (worths digits).reverse
        then .float else .int := by
  induction digits generalizing total with
  | nil =>
    rw [integerKind, if_neg]
    simpa [worths] using htotal
  | cons c digits ih =>
    rw [List.forall_mem_cons] at hvalid
    rw [integerKind]
    by_cases hc : c = '_'
    · rw [if_pos hc, hc, worths_cons_group]
      exact ih hvalid.2 htotal
    · have hworth : worth c < radix := hvalid.1.resolve_left hc
      rw [if_neg hc, digit?_eq_some hradix hworth, worths_cons hc, List.length_cons,
        Nat.ofDigits_reverse_cons]
      dsimp only
      -- What comes after the digit only adds to the sum.
      have hsum : total * radix ^ ((worths digits).length + 1)
            + (Nat.ofDigits radix (worths digits).reverse
              + radix ^ (worths digits).length * worth c)
          = (total * radix + worth c) * radix ^ (worths digits).length
            + Nat.ofDigits radix (worths digits).reverse := by
        ring
      rw [hsum]
      split
      · next hlimit =>
        rw [if_pos]
        calc limit ≤ total * radix + worth c := hlimit
          _ ≤ (total * radix + worth c) * radix ^ (worths digits).length :=
            Nat.le_mul_of_pos_right _ (Nat.pow_pos hpos)
          _ ≤ _ := Nat.le_add_right _ _
      · next hlimit => exact ih hvalid.2 (Nat.lt_of_not_le hlimit)

/-! ## The base -/

theorem reading_base (text : List Char) : 0 < (reading text).1 ∧ (reading text).1 ≤ 16 := by
  unfold reading
  split
  · split_ifs <;> simp
  · simp
  · simp

/-- The letter of a base in front of at least one digit. -/
theorem reading_of_radix? {letter digit : Char} {radix : Nat} (h : radix? letter = some radix)
    (digits : List Char) :
    reading ('0' :: letter :: digit :: digits) = (radix, digit :: digits) := by
  unfold radix? at h
  unfold reading
  split at h <;> simp_all

theorem toLower_of_isDigitOrGroup {c : Char} (h : isDigitOrGroup c = true) : c.toLower = c := by
  rw [isDigitOrGroup, Bool.or_eq_true, beq_iff_eq] at h
  rcases h with hdigit | rfl
  · have hrange : 48 ≤ c.val.toNat ∧ c.val.toNat ≤ 57 := by
      simpa [Char.isDigit, UInt32.le_iff_toNat_le] using hdigit
    have hupper : 'A'.val.toNat = 65 := rfl
    delta Char.toLower
    rw [dif_neg]
    simp only [ge_iff_le, UInt32.le_iff_toNat_le]
    omega
  · rfl

/-- Among digits no letter announces a base. -/
theorem wholeKind_eq {whole : List Char} (h : ∀ c ∈ whole, isDigitOrGroup c = true) :
    wholeKind whole = integerKind (reading whole).1 0 (reading whole).2 := by
  unfold wholeKind
  split
  · next c cs =>
    cases cs with
    | nil => rfl
    | cons d cs =>
      have hc : isDigitOrGroup c = true := h c (by simp)
      have hne : ∀ letter, isDigitOrGroup letter = false → c.toLower ≠ letter := by
        rintro letter hletter rfl
        rw [toLower_of_isDigitOrGroup hc, hc] at hletter
        cases hletter
      rw [reading, if_neg (hne _ rfl), if_neg (hne _ rfl), if_neg (hne _ rfl)]
  · next hwhole =>
    have hreading : reading whole = (10, whole) := by
      unfold reading
      split
      · exact absurd rfl (hwhole _ _)
      · exact absurd rfl (hwhole _ _)
      · rfl
    rw [hreading]

/-! ## What is read -/

theorem fraction_cases (cs : List Char) : (fraction cs).1 = [] ∨ '.' ∈ (fraction cs).1 := by
  unfold fraction
  split
  · exact .inr List.mem_cons_self
  · exact .inl rfl

theorem exponent_cases (cs : List Char) :
    (exponent cs).1 = [] ∨ ∃ letter after, (exponent cs).1 = letter :: after
      ∧ letter.toLower = 'e' := by
  cases cs with
  | nil => exact .inl rfl
  | cons c cs =>
    rw [exponent]
    split
    · next hletter => exact .inr ⟨c, _, rfl, hletter.1⟩
    · exact .inl rfl

/-- Without fraction and exponent there are the digits alone. -/
theorem decimal_eq {cs : List Char} (hpoint : '.' ∉ (decimal cs).2.1)
    (hexponent : ¬HasExponent (decimal cs).2.1) :
    (decimal cs).2.1 = cs.takeWhile isDigitOrGroup
      ∧ (decimal cs).1 = wholeKind (cs.takeWhile isDigitOrGroup) := by
  have htext : (decimal cs).2.1 = cs.takeWhile isDigitOrGroup
      ++ (fraction (cs.dropWhile isDigitOrGroup)).1
      ++ (exponent (fraction (cs.dropWhile isDigitOrGroup)).2).1 := rfl
  have hfraction : (fraction (cs.dropWhile isDigitOrGroup)).1 = [] := by
    apply (fraction_cases _).resolve_right
    intro hmem
    apply hpoint
    rw [htext]
    simp [hmem]
  rw [hfraction, List.append_nil] at htext
  have hpower : (exponent (fraction (cs.dropWhile isDigitOrGroup)).2).1 = [] := by
    apply (exponent_cases _).resolve_right
    rintro ⟨letter, after, hletter, hlower⟩
    rw [hletter] at htext
    exact hexponent ⟨_, letter, after, htext,
      fun c hc => List.all_eq_true.1 List.all_takeWhile c hc, hlower⟩
  rw [hpower, List.append_nil] at htext
  refine ⟨htext, ?_⟩
  rw [decimal, hfraction, hpower]
  rfl

/-- The kind of a number without fraction and exponent is read off its digits, in its base. -/
theorem split_kind_eq {cs : List Char} (h : IsInteger (split cs).2.1) :
    (split cs).1
      = integerKind (reading (split cs).2.1).1 0 (reading (split cs).2.1).2 := by
  have hpoint := h.no_point
  have hexponent := h.no_exponent
  unfold split at hpoint hexponent ⊢
  cases hbased : based? cs with
  | none =>
    rw [hbased] at hpoint hexponent
    obtain ⟨htext, hkind⟩ := decimal_eq hpoint hexponent
    rw [Option.getD_none, htext, hkind]
    exact wholeKind_eq fun c hc => List.all_eq_true.1 List.all_takeWhile c hc
  | some number =>
    unfold based? at hbased
    split at hbased
    · next letter cs =>
      split at hbased
      · cases hbased
      · next radix hradix =>
        dsimp only at hbased
        split at hbased
        · cases hbased
        · next hdigits =>
          cases hbased
          rw [List.isEmpty_iff] at hdigits
          obtain ⟨digit, digits, heq⟩ := List.exists_cons_of_ne_nil hdigits
          rw [Option.getD_some, heq, reading_of_radix? hradix]
    · cases hbased

/-- The size of a number that is read decides on its kind. -/
theorem split_kind_of_isInteger {cs : List Char} (h : IsInteger (split cs).2.1) :
    (split cs).1 = if 2 ^ 63 ≤ value (reading (split cs).2.1).1 (reading (split cs).2.1).2
      then .float else .int := by
  obtain ⟨hpos, hle⟩ := reading_base (split cs).2.1
  have hlimit : limit = 2 ^ 63 := rfl
  rw [split_kind_eq h, integerKind_eq_of_valid hpos hle h.valid (by decide), Nat.zero_mul,
    Nat.zero_add, hlimit, value]

end Lexer.Number

/-! ## The numbers of a source -/

/-- Kinds of numbers. -/
def Kind.isNumber : Kind → Bool
  | .int | .float => true
  | _ => false

theorem Kind.isNumber_of_isSign {kind : Kind} (h : kind.isSign = true) : kind.isNumber = false := by
  unfold Kind.isSign at h
  split at h
  all_goals first | rfl | cases h

theorem Kind.isNumber_of_isReserved {kind : Kind} (h : kind.isReserved = true) :
    kind.isNumber = false := by
  unfold Kind.isReserved at h
  split at h
  all_goals first | rfl | cases h

/-- If the lexeme is a number, it was read as one. -/
def Lexeme.IsReadNumber (lexeme : Lexeme) : Prop :=
  lexeme.kind.isNumber = true →
    ∃ cs, lexeme = ⟨(Lexer.Number.split cs).1, (Lexer.Number.split cs).2.1⟩

theorem Lexeme.IsReadNumber.of_kind {kind : Kind} (h : kind.isNumber = false) (text : List Char) :
    IsReadNumber ⟨kind, text⟩ := by
  intro hkind
  rw [h] at hkind
  cases hkind

namespace Lexer

theorem Number.lexemes_of_rule {previous : Option Kind} {cs : List Char} {scan : Scan}
    (h : rule previous cs = some (.ok scan)) :
    scan.lexemes = [⟨(split cs).1, (split cs).2.1⟩] := by
  unfold rule at h
  split at h
  · cases h
    rfl
  · cases h

theorem Word.kindAfter_isNumber (previous : Option Kind) (word : List Char) :
    (kindAfter previous word).isNumber = false := by
  rcases kindAfter_eq_name_or previous word with hname | hreserved
  · rw [hname]
    rfl
  · exact Kind.isNumber_of_isReserved hreserved

theorem Quoted.plain_isReadNumber (opening body : List Char) (quote : Char) :
    ∀ lexeme ∈ plain opening body quote, lexeme.IsReadNumber := by
  unfold plain
  split
  · exact List.forall_mem_cons.2 ⟨.of_kind rfl _, List.forall_mem_cons.2 ⟨.of_kind rfl _,
      List.forall_mem_singleton.2 (.of_kind rfl _)⟩⟩
  · exact List.forall_mem_singleton.2 (.of_kind rfl _)

theorem Body.access_isReadNumber (cs : List Char) :
    ∀ lexeme ∈ (access cs).1, lexeme.IsReadNumber := by
  obtain hnone | ⟨inside, kind, text, hkey, hoffset⟩ | ⟨kind, arrow, name, -, -, hmember, -⟩ :=
    access_cases cs
  · rw [hnone]
    nofun
  · have hkind : kind.isNumber = false := by
      obtain ⟨rfl, -⟩ | rfl | rfl := key?_cases hkey <;> rfl
    rw [hoffset]
    exact List.forall_mem_cons.2 ⟨.of_kind rfl _, List.forall_mem_cons.2 ⟨.of_kind hkind _,
      List.forall_mem_singleton.2 (.of_kind rfl _)⟩⟩
  · rw [hmember]
    exact List.forall_mem_cons.2 ⟨.of_kind rfl _, List.forall_mem_singleton.2 (.of_kind rfl _)⟩

namespace Context

section Steps

variable {context : Context} {line : Nat} {previous : Option Kind} {cs : List Char} {next : Step}

theorem stepCode_isReadNumber (hne : cs ≠ []) (hs : context.stepCode line previous cs = .ok next) :
    ∀ lexeme ∈ next.lexemes, lexeme.IsReadNumber := by
  obtain ⟨scan, context', hscan, -, rfl⟩ := exists_scan_of_stepCode hs
  have hone : ∀ {kind : Kind} {text : List Char}, kind.isNumber = false →
      ∀ lexeme ∈ [(⟨kind, text⟩ : Lexeme)], lexeme.IsReadNumber :=
    fun hkind => List.forall_mem_singleton.2 (.of_kind hkind _)
  cases Code.scan_shape hne hscan with
  | gap => exact hone rfl
  | word hword =>
    obtain ⟨-, rfl | ⟨tail, rest, -, rfl⟩ | ⟨-, rfl⟩⟩ := Word.rule_cases hword
    · exact hone (Word.kindAfter_isNumber _ _)
    · exact hone rfl
    · exact hone rfl
  | number hnumber =>
    dsimp only
    rw [Number.lexemes_of_rule hnumber]
    exact List.forall_mem_singleton.2 fun _ => ⟨cs, rfl⟩
  | sign hsign =>
    obtain ⟨-, kind, text, rest, hkind, rfl⟩ := hsign
    exact hone (Kind.isNumber_of_isSign hkind)
  | string => exact Quoted.plain_isReadNumber _ _ _
  | enter => exact hone rfl
  | heredoc => exact hone rfl
  | nowdoc =>
    exact List.forall_mem_cons.2 ⟨.of_kind rfl _,
      List.forall_mem_append.2 ⟨Lexeme.forall_mem_ofText (.of_kind rfl _), hone rfl⟩⟩
  | leave => exact hone rfl

theorem stepBody_isReadNumber {closer : Closer} {opened : Nat} {fresh : Bool} {outer : Context}
    (hs : stepBody closer opened fresh outer line cs = .ok next) :
    ∀ lexeme ∈ next.lexemes, lexeme.IsReadNumber := by
  obtain ⟨text, event, hseek, rfl⟩ := exists_seek_of_stepBody hs
  refine List.forall_mem_append.2 ⟨Lexeme.forall_mem_ofText (.of_kind rfl text), ?_⟩
  cases Body.seek_shape hseek with
  | quote => exact List.forall_mem_singleton.2 (.of_kind rfl _)
  | label => exact List.forall_mem_singleton.2 (.of_kind rfl _)
  | splice => exact List.forall_mem_cons.2 ⟨.of_kind rfl _, Body.access_isReadNumber _⟩
  | dollarBrace hname =>
    refine List.forall_mem_cons.2 ⟨.of_kind rfl _, ?_⟩
    rcases hname with rfl | ⟨braced, rfl⟩
    · nofun
    · exact List.forall_mem_singleton.2 (.of_kind rfl braced)
  | brace => exact List.forall_mem_singleton.2 (.of_kind rfl _)

theorem stepHtml_isReadNumber (cs : List Char) :
    ∀ lexeme ∈ (stepHtml cs).lexemes, lexeme.IsReadNumber := by
  unfold stepHtml
  split
  · next tag rest htag =>
    have hkind : tag.kind.isNumber = false := by
      rcases Markup.openTag?_kind htag with hkind | hkind <;> rw [hkind] <;> rfl
    exact List.forall_mem_append.2 ⟨Lexeme.forall_mem_ofText (.of_kind rfl _),
      List.forall_mem_singleton.2 (.of_kind hkind _)⟩
  · exact List.forall_mem_singleton.2 (.of_kind rfl _)

/-- Only the rule for numbers reads one. -/
theorem step_isReadNumber (hne : cs ≠ []) (hs : context.step line previous cs = .ok next) :
    ∀ lexeme ∈ next.lexemes, lexeme.IsReadNumber := by
  obtain ⟨rfl, rfl⟩ | ⟨rfl, rfl⟩ | ⟨-, hs⟩ | ⟨closer, opened, fresh, outer, rfl, hs⟩ :=
    step_cases hs
  · exact stepHtml_isReadNumber cs
  · exact List.forall_mem_singleton.2 (.of_kind rfl _)
  · exact stepCode_isReadNumber hne hs
  · exact stepBody_isReadNumber hs

end Steps

end Context

theorem Reads.isReadNumber {state : State} {lexemes : List Lexeme} (h : Reads state lexemes) :
    ∀ lexeme ∈ lexemes, lexeme.IsReadNumber := by
  induction h with
  | done => nofun
  | step hne hstep _ ih =>
    exact List.forall_mem_append.2 ⟨Context.step_isReadNumber hne hstep, ih⟩

end Lexer

/-- **The kind of an integer tells its size**: where a number is read that has neither fraction nor
exponent, and only digits of its base, it is a float if its value is `2 ^ 63` or more, and an
integer otherwise. All numbers of a source are read like that. -/
theorem number_kind_tells_size :
    (∀ previous cs, Lexer.Number.begins cs = true →
      ∃ kind text rest, Lexer.Number.rule previous cs = some (.ok (.one kind text rest))
        ∧ text ++ rest = cs
        ∧ (Lexer.Number.IsInteger text →
          kind = if 2 ^ 63 ≤ Lexer.Number.value (Lexer.Number.reading text).1
              (Lexer.Number.reading text).2 then .float else .int))
      ∧ ∀ source tokens, tokenize source = .ok tokens → ∀ token ∈ tokens,
        token.kind = .int ∨ token.kind = .float → Lexer.Number.IsInteger token.text.toList →
          token.kind = if 2 ^ 63 ≤ Lexer.Number.value (Lexer.Number.reading token.text.toList).1
              (Lexer.Number.reading token.text.toList).2 then .float else .int := by
  refine ⟨?_, ?_⟩
  · intro previous cs hbegins
    exact ⟨_, _, _, if_pos hbegins, Lexer.Number.split_append cs,
      Lexer.Number.split_kind_of_isInteger⟩
  · intro source tokens h token hmem hkind hinteger
    obtain ⟨lexemes, hreads, rfl⟩ := Lexer.reads_of_tokenize h
    have hmem : token.lexeme ∈ lexemes :=
      Token.map_lexeme_place 1 lexemes ▸ List.mem_map_of_mem hmem
    have hnumber : token.lexeme.kind.isNumber = true := by
      rcases hkind with hkind | hkind <;> rw [Token.lexeme, hkind] <;> rfl
    obtain ⟨cs, hcs⟩ := hreads.isReadNumber _ hmem hnumber
    have htext : token.text.toList = (Lexer.Number.split cs).2.1 := congrArg Lexeme.text hcs
    have hsplit : token.kind = (Lexer.Number.split cs).1 := congrArg Lexeme.kind hcs
    rw [htext] at hinteger ⊢
    rw [hsplit]
    exact Lexer.Number.split_kind_of_isInteger hinteger

/-- Below the limit with the base announced, and above it in the octal base of a leading zero. -/
theorem number_kind_tells_size_limit :
    ∃ tokens below above,
      tokenize "<?php 0X7FFF_FFFF_FFFF_FFFF+01_000000000000000000000;" = .ok tokens
      ∧ below ∈ tokens ∧ below.text = "0X7FFF_FFFF_FFFF_FFFF" ∧ below.kind = .int
      ∧ above ∈ tokens ∧ above.text = "01_000000000000000000000" ∧ above.kind = .float := by
  have h : (tokenize "<?php 0X7FFF_FFFF_FFFF_FFFF+01_000000000000000000000;").toOption
      = some [⟨.tag .open_, "<?php ", 1⟩, ⟨.int, "0X7FFF_FFFF_FFFF_FFFF", 1⟩, ⟨.punct, "+", 1⟩,
        ⟨.float, "01_000000000000000000000", 1⟩, ⟨.punct, ";", 1⟩] := by
    decide +kernel
  have h := Lexer.tokenize_of_toOption h
  have hsize := number_kind_tells_size.2 _ _ h
  have hbelow := hsize ⟨.int, "0X7FFF_FFFF_FFFF_FFFF", 1⟩ (by simp) (.inl rfl)
    (.of_all (by decide +kernel) (by decide +kernel) (by decide +kernel))
  have habove := hsize ⟨.float, "01_000000000000000000000", 1⟩ (by simp) (.inr rfl)
    (.of_all (by decide +kernel) (by decide +kernel) (by decide +kernel))
  rw [if_neg (by decide +kernel)] at hbelow
  rw [if_pos (by decide +kernel)] at habove
  exact ⟨_, _, _, h, by simp, rfl, hbelow, by simp, rfl, habove⟩

end Listing
