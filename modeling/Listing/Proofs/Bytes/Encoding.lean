import Listing.Proofs.Bytes.Scanner
import Listing.Proofs.Lexemes

/-!
# Characters in their bytes

An ASCII character is one byte, its own number. Any other character is a first byte and some
continuation bytes, all of them from `0x80` on; so no byte of it is mistaken for an ASCII character,
and only its first byte is a place to cut.

From this follows what a byte scanner sees of a text. `At src i cs` says that the bytes of `cs` stand
at `i`, up to the end of the source. A class of characters that does not tell the characters beyond
ASCII apart (`Uniform`) is then seen by its first byte, and a run of it ends between two characters.
-/

namespace Listing.Bytes

open Text

/-! ## One character -/

section Characters

variable {c : Char}

theorem toNat_ofUInt8 (byte : UInt8) : (Char.ofUInt8 byte).toNat = byte.toNat :=
  UInt8.toNat_toUInt32 byte

theorem toUInt8_ofUInt8 (byte : UInt8) : (Char.ofUInt8 byte).toUInt8 = byte :=
  UInt8.toUInt8_toUInt32 byte

theorem ofUInt8_toUInt8 (h : c.toNat < 0x80) : Char.ofUInt8 c.toUInt8 = c := by
  apply Char.toNat_inj.1
  rw [toNat_ofUInt8]
  simp only [Char.toUInt8, UInt32.toNat_toUInt8, Char.toNat_val]
  omega

theorem utf8EncodeChar_of_ascii (h : c.toNat < 0x80) : String.utf8EncodeChar c = [c.toUInt8] := by
  refine String.utf8EncodeChar_eq_singleton (Char.utf8Size_eq_one_iff.2 ?_)
  rw [UInt32.le_iff_toNat_le]
  exact Nat.le_of_lt_succ h

/-- Bytes that no ASCII character has. -/
def Wide (bytes : List UInt8) : Prop :=
  ∀ byte ∈ bytes, 0x80 ≤ byte.toNat

theorem wide_utf8EncodeChar (h : 0x80 ≤ c.toNat) : Wide (String.utf8EncodeChar c) := by
  intro byte hmem
  have hval : c.val.toNat = c.toNat := rfl
  simp only [String.utf8EncodeChar, hval] at hmem
  split at hmem
  · omega
  all_goals
    repeat' split at hmem
    all_goals
      simp only [List.mem_cons, List.not_mem_nil, or_false] at hmem
      rcases hmem with rfl | rfl | rfl | rfl <;> simp only [UInt8.toNat_ofNat'] <;> omega

theorem utf8EncodeChar_eq_cons (c : Char) :
    ∃ byte more, String.utf8EncodeChar c = byte :: more ∧ byte.IsUTF8FirstByte
      ∧ ∀ other ∈ more, ¬ other.IsUTF8FirstByte := by
  obtain ⟨byte, more, hc⟩ := List.exists_cons_of_ne_nil (String.utf8EncodeChar_ne_nil (c := c))
  refine ⟨byte, more, hc, ?_, fun other hmem hfirst => ?_⟩
  · have hlt : 0 < (String.utf8EncodeChar c).length := by simp [hc]
    have hget : byte = (String.utf8EncodeChar c)[0] := by simp [hc]
    rw [hget]
    exact UInt8.isUTF8FirstByte_getElem_utf8EncodeChar.2 rfl
  · obtain ⟨i, hi, rfl⟩ := List.getElem_of_mem hmem
    have hlt : i + 1 < (String.utf8EncodeChar c).length := by simp [hc, hi]
    have hget : more[i] = (String.utf8EncodeChar c)[i + 1] := by simp [hc]
    rw [hget] at hfirst
    exact absurd (UInt8.isUTF8FirstByte_getElem_utf8EncodeChar.1 hfirst) (by omega)

theorem wide_of_not_first {byte : UInt8} (h : ¬ byte.IsUTF8FirstByte) : 0x80 ≤ byte.toNat := by
  refine Nat.le_of_not_lt fun hlt => h ?_
  obtain ⟨first, more, he, hfirst, -⟩ := utf8EncodeChar_eq_cons (Char.ofUInt8 byte)
  have hascii : (Char.ofUInt8 byte).toNat < 0x80 := by rwa [toNat_ofUInt8]
  rw [utf8EncodeChar_of_ascii hascii, toUInt8_ofUInt8] at he
  obtain ⟨rfl, -⟩ := List.cons.inj he
  exact hfirst

end Characters

/-! ## Classes of characters -/

/-- The class does not tell the characters beyond ASCII apart. -/
def Uniform (p : Char → Bool) : Prop :=
  ∀ c d : Char, 0x80 ≤ c.toNat → 0x80 ≤ d.toNat → p c = p d

/-- The class has ASCII characters only. -/
def Narrow (p : Char → Bool) : Prop :=
  ∀ c : Char, p c = true → c.toNat < 0x80

namespace Narrow

variable {p q : Char → Bool}

theorem eq_false (h : Narrow p) {c : Char} (hc : 0x80 ≤ c.toNat) : p c = false := by
  cases hp : p c with
  | false => rfl
  | true => exact absurd (h c hp) (by omega)

theorem uniform (h : Narrow p) : Uniform p := by
  intro c d hc hd
  rw [h.eq_false hc, h.eq_false hd]

theorem or (hp : Narrow p) (hq : Narrow q) : Narrow fun c => p c || q c := by
  intro c h
  rcases Bool.or_eq_true_iff.1 h with h | h
  · exact hp c h
  · exact hq c h

theorem beq {a : Char} (h : a.toNat < 0x80) : Narrow (· == a) := by
  intro c hc
  rw [eq_of_beq hc]
  exact h

theorem isDigit : Narrow Char.isDigit := by
  intro c h
  simp only [Char.isDigit, ge_iff_le, Bool.and_eq_true, decide_eq_true_eq,
    UInt32.le_iff_toNat_le] at h
  have : c.val.toNat = c.toNat := rfl
  have : '9'.val.toNat = 57 := rfl
  omega

theorem isAlpha : Narrow Char.isAlpha := by
  intro c h
  delta Char.isAlpha Char.isUpper Char.isLower at h
  simp only [ge_iff_le, Bool.or_eq_true, Bool.and_eq_true, decide_eq_true_eq,
    UInt32.le_iff_toNat_le] at h
  have : c.val.toNat = c.toNat := rfl
  have : 'Z'.val.toNat = 90 := rfl
  have : 'z'.val.toNat = 122 := rfl
  omega

theorem isBlank : Narrow isBlank :=
  .or (.beq (by decide)) (.beq (by decide))

theorem isSpace : Narrow isSpace :=
  .or (.or (.or (.beq (by decide)) (.beq (by decide))) (.beq (by decide))) (.beq (by decide))

theorem isDigitOrGroup : Narrow isDigitOrGroup :=
  .or .isDigit (.beq (by decide))

theorem isDigitOf (radix : Nat) : Narrow (Lexer.Number.isDigitOf radix) := by
  refine .or (.beq (by decide)) fun c h => ?_
  by_cases hd : c.isDigit = true
  · exact isDigit c hd
  · by_cases ha : c.isAlpha = true
    · exact isAlpha c ha
    · simp [Lexer.Number.digit?, hd, ha] at h

end Narrow

theorem isNameStart_of_wide {c : Char} (h : 0x80 ≤ c.toNat) : isNameStart c = true := by
  simp [isNameStart, h]

theorem ascii_of_not_isNameStart {c : Char} (h : isNameStart c = false) : c.toNat < 0x80 := by
  refine Nat.lt_of_not_le fun hc => ?_
  rw [isNameStart_of_wide hc] at h
  cases h

namespace Uniform

variable {p q : Char → Bool}

theorem or (hp : Uniform p) (hq : Uniform q) : Uniform fun c => p c || q c := by
  intro c d hc hd
  simp only [hp c d hc hd, hq c d hc hd]

theorem beq {a : Char} (h : a.toNat < 0x80) : Uniform (· == a) :=
  (Narrow.beq h).uniform

theorem isNameStart : Uniform isNameStart := by
  intro c d hc hd
  rw [isNameStart_of_wide hc, isNameStart_of_wide hd]

theorem isNameChar : Uniform isNameChar :=
  .or .isNameStart Narrow.isDigit.uniform

/-- A wide byte is of the class of the characters beyond ASCII. -/
theorem is_eq (h : Uniform p) {c : Char} (hc : 0x80 ≤ c.toNat) {byte : UInt8}
    (hb : 0x80 ≤ byte.toNat) : is p byte = p c :=
  h _ _ (by rw [toNat_ofUInt8]; exact hb) hc

end Uniform

theorem is_toUInt8 (p : Char → Bool) {c : Char} (h : c.toNat < 0x80) : is p c.toUInt8 = p c := by
  rw [is, ofUInt8_toUInt8 h]

theorem Narrow.is_eq_false {p : Char → Bool} (h : Narrow p) {byte : UInt8}
    (hb : 0x80 ≤ byte.toNat) : is p byte = false :=
  h.eq_false (by rw [toNat_ofUInt8]; exact hb)

/-! ## Texts -/

@[simp]
theorem encode_nil : encode [] = [] := rfl

@[simp]
theorem encode_cons (c : Char) (cs : List Char) :
    encode (c :: cs) = String.utf8EncodeChar c ++ encode cs := by
  simp [encode]

@[simp]
theorem encode_append (xs ys : List Char) : encode (xs ++ ys) = encode xs ++ encode ys := by
  simp [encode]

theorem encode_cons_of_ascii {c : Char} (h : c.toNat < 0x80) (cs : List Char) :
    encode (c :: cs) = c.toUInt8 :: encode cs := by
  rw [encode_cons, utf8EncodeChar_of_ascii h, List.singleton_append]

theorem encode_cons_of_wide {c : Char} (h : 0x80 ≤ c.toNat) (cs : List Char) :
    ∃ byte bytes, encode (c :: cs) = byte :: bytes ∧ 0x80 ≤ byte.toNat := by
  obtain ⟨byte, more, he, -, -⟩ := utf8EncodeChar_eq_cons c
  exact ⟨byte, more ++ encode cs, by simp [he], wide_utf8EncodeChar h byte (by simp [he])⟩

/-- The number of bytes of a text. -/
def size (cs : List Char) : Nat :=
  (encode cs).length

@[simp]
theorem size_nil : size [] = 0 := rfl

@[simp]
theorem size_append (xs ys : List Char) : size (xs ++ ys) = size xs + size ys := by
  simp [size]

theorem size_cons (c : Char) (cs : List Char) : size (c :: cs) = size [c] + size cs :=
  size_append [c] cs

theorem size_cons_of_ascii {c : Char} (h : c.toNat < 0x80) (cs : List Char) :
    size (c :: cs) = size cs + 1 := by
  simp [size, encode_cons_of_ascii h]

theorem size_singleton_pos (c : Char) : 0 < size [c] := by
  simp [size, Char.utf8Size_pos]

theorem size_pos {cs : List Char} (h : cs ≠ []) : 0 < size cs := by
  obtain ⟨c, cs, rfl⟩ := List.exists_cons_of_ne_nil h
  have := size_singleton_pos c
  rw [size_cons]
  omega

theorem size_eq_zero_iff {cs : List Char} : size cs = 0 ↔ cs = [] := by
  refine ⟨fun h => ?_, fun h => h ▸ rfl⟩
  cases cs with
  | nil => rfl
  | cons c cs =>
    have := size_pos (List.cons_ne_nil c cs)
    omega

/-- The first byte of a character shows its class. -/
theorem head?_encode_any {p : Char → Bool} (h : Uniform p) (cs : List Char) :
    (encode cs).head?.any (is p) = headIs p cs := by
  cases cs with
  | nil => rfl
  | cons c cs =>
    by_cases hc : c.toNat < 0x80
    · simp [encode_cons_of_ascii hc, is_toUInt8 p hc]
    · have hw : 0x80 ≤ c.toNat := by omega
      obtain ⟨byte, bytes, he, hb⟩ := encode_cons_of_wide hw cs
      rw [he]
      exact h.is_eq hw hb

/-- A run of a class ends between two characters. -/
theorem takeWhile_encode {p : Char → Bool} (h : Uniform p) (cs : List Char) :
    (encode cs).takeWhile (is p) = encode (cs.takeWhile p) := by
  induction cs with
  | nil => rfl
  | cons c cs ih =>
    by_cases hc : c.toNat < 0x80
    · rw [encode_cons_of_ascii hc, List.takeWhile_cons, is_toUInt8 p hc, List.takeWhile_cons]
      split
      · rw [ih, encode_cons_of_ascii hc]
      · rfl
    · have hw : 0x80 ≤ c.toNat := by omega
      have hbytes : ∀ byte ∈ String.utf8EncodeChar c, is p byte = p c :=
        fun byte hmem => h.is_eq hw (wide_utf8EncodeChar hw byte hmem)
      rw [encode_cons, List.takeWhile_cons]
      split
      · next hp =>
        rw [List.takeWhile_append_of_pos (fun byte hmem => by rw [hbytes byte hmem, hp]), ih,
          encode_cons]
      · next hp =>
        obtain ⟨byte, more, he, -, -⟩ := utf8EncodeChar_eq_cons c
        have hb : is p byte = p c := hbytes byte (by simp [he])
        simp [he, hb, hp]

/-! ## Known texts -/

theorem utf8EncodeChar_append_inj {c d : Char} {xs ys : List UInt8}
    (h : String.utf8EncodeChar c ++ xs = String.utf8EncodeChar d ++ ys) : c = d := by
  have hdecode := congrArg (fun bytes => bytes.toByteArray.utf8DecodeChar? 0) h
  simpa only [List.toByteArray_append, ByteArray.utf8DecodeChar?_utf8EncodeChar_append,
    Option.some.injEq] using hdecode

/-- A text begins with another just when its bytes do. -/
theorem isPrefixOf_encode (text cs : List Char) :
    (encode text).isPrefixOf (encode cs) = (strip? text cs).isSome := by
  induction text generalizing cs with
  | nil => rfl
  | cons p ps ih =>
    cases cs with
    | nil =>
      obtain ⟨byte, more, he, -, -⟩ := utf8EncodeChar_eq_cons p
      simp [he, strip?]
    | cons c cs =>
      rw [strip?, Bool.eq_iff_iff, List.isPrefixOf_iff_prefix]
      split
      · next hpc =>
        rw [← ih, hpc, encode_cons, encode_cons, List.prefix_append_right_inj,
          List.isPrefixOf_iff_prefix]
      · next hpc =>
        refine iff_of_false ?_ (by simp)
        rintro ⟨after, hafter⟩
        rw [encode_cons, encode_cons, List.append_assoc] at hafter
        exact hpc (utf8EncodeChar_append_inj hafter)

/-- A needle in ASCII is not found in a character beyond ASCII. -/
theorem find_wide_append {bytes : List UInt8} (h : Wide bytes) {a : Char} (ha : a.toNat < 0x80)
    (text : List Char) (rest : List UInt8) :
    find (encode (a :: text)) (bytes ++ rest)
      = (find (encode (a :: text)) rest).map (· + bytes.length) := by
  induction bytes with
  | nil => simp
  | cons byte bytes ih =>
    have hne : ¬ a.toUInt8 = byte := by
      rintro rfl
      have := h a.toUInt8 List.mem_cons_self
      simp only [Char.toUInt8, UInt32.toNat_toUInt8, Char.toNat_val] at this
      omega
    have hfalse : (encode (a :: text)).isPrefixOf (byte :: (bytes ++ rest)) = false := by
      rw [encode_cons_of_ascii ha, List.isPrefixOf_cons_cons, beq_false_of_ne hne, Bool.false_and]
    rw [List.cons_append, find, hfalse, ih fun other hmem => h other (List.mem_cons_of_mem _ hmem)]
    cases find (encode (a :: text)) rest <;> simp [Nat.add_assoc]

/-- The first place of a needle in ASCII, as a place in the text. -/
theorem find_encode {a : Char} (ha : a.toNat < 0x80) (text cs : List Char) :
    find (encode (a :: text)) (encode cs)
      = if (onward (fun ds => (strip? (a :: text) ds).isSome) cs).isEmpty then none
        else some (size (before (fun ds => (strip? (a :: text) ds).isSome) cs)) := by
  induction cs with
  | nil => rfl
  | cons c cs ih =>
    by_cases hp : (strip? (a :: text) (c :: cs)).isSome = true
    · have hpre := isPrefixOf_encode (a :: text) (c :: cs)
      rw [hp] at hpre
      obtain ⟨byte, more, he, -, -⟩ := utf8EncodeChar_eq_cons c
      rw [encode_cons c cs, he, List.cons_append] at hpre ⊢
      rw [find, if_pos hpre, onward, before, if_pos hp, if_pos hp]
      rfl
    · have hstep : find (encode (a :: text)) (encode (c :: cs))
          = (find (encode (a :: text)) (encode cs)).map (· + size [c]) := by
        by_cases hc : c.toNat < 0x80
        · have hpre := isPrefixOf_encode (a :: text) (c :: cs)
          rw [Bool.eq_false_iff.2 hp] at hpre
          rw [encode_cons_of_ascii hc] at hpre ⊢
          rw [find, hpre, size_cons_of_ascii hc]
          rfl
        · have hw : 0x80 ≤ c.toNat := by omega
          rw [encode_cons c cs, find_wide_append (wide_utf8EncodeChar hw) ha]
          simp [size]
      rw [hstep, ih, onward, before, if_neg hp, if_neg hp]
      split
      · rfl
      · rw [Option.map_some, size_cons c (before _ cs), Nat.add_comm]

/-! ## Words and lines -/

/-- A text in ASCII. -/
def Plain (cs : List Char) : Prop :=
  ∀ c ∈ cs, c.toNat < 0x80

instance (cs : List Char) : Decidable (Plain cs) :=
  List.decidableBAll (fun c : Char => c.toNat < 0x80) cs

theorem plain_cons_iff {c : Char} {cs : List Char} :
    Plain (c :: cs) ↔ c.toNat < 0x80 ∧ Plain cs :=
  List.forall_mem_cons

theorem letters_encode {cs : List Char} (h : Plain cs) : letters (encode cs) = cs := by
  induction cs with
  | nil => rfl
  | cons c cs ih =>
    have hc := h c List.mem_cons_self
    have hcs := ih fun d hmem => h d (List.mem_cons_of_mem _ hmem)
    rw [encode_cons_of_ascii hc, letters, List.map_cons, ofUInt8_toUInt8 hc]
    rw [letters] at hcs
    rw [hcs]

theorem letters_encode_takeWhile {p : Char → Bool} (h : Narrow p) (cs : List Char) :
    letters (encode (cs.takeWhile p)) = cs.takeWhile p :=
  letters_encode fun c hmem => h c (List.all_eq_true.1 List.all_takeWhile c hmem)

theorem toLower_of_wide {c : Char} (h : 0x80 ≤ c.toNat) : c.toLower = c := by
  have hc : c.val.toNat = c.toNat := rfl
  have hz : 'Z'.val.toNat = 90 := rfl
  delta Char.toLower
  rw [dif_neg]
  simp only [ge_iff_le, UInt32.le_iff_toNat_le]
  omega

theorem lower_ne_cons {c a : Char} (hc : 0x80 ≤ c.toNat) (ha : a.toNat < 0x80)
    (cs word : List Char) : lower (c :: cs) ≠ a :: word := by
  rw [lower, List.map_cons, toLower_of_wide hc]
  intro h
  obtain ⟨rfl, -⟩ := List.cons.inj h
  omega

theorem lower_letters_ne_cons {byte : UInt8} {a : Char} (hb : 0x80 ≤ byte.toNat)
    (ha : a.toNat < 0x80) (bytes : List UInt8) (word : List Char) :
    lower (letters (byte :: bytes)) ≠ a :: word :=
  lower_ne_cons (by rwa [toNat_ofUInt8]) ha (letters bytes) word

/-- Whether a text is a word in ASCII, whatever its capitals, is seen in its bytes. -/
theorem lower_letters_encode_eq_iff {word : List Char} (h : Plain word) (cs : List Char) :
    lower (letters (encode cs)) = word ↔ lower cs = word := by
  induction cs generalizing word with
  | nil => rfl
  | cons c cs ih =>
    cases word with
    | nil =>
      obtain ⟨byte, more, he, -, -⟩ := utf8EncodeChar_eq_cons c
      simp [he, letters, lower]
    | cons a word =>
      obtain ⟨ha, hword⟩ := plain_cons_iff.1 h
      by_cases hc : c.toNat < 0x80
      · have ih := ih hword
        simp only [letters, lower, List.map_map] at ih
        simp [encode_cons_of_ascii hc, letters, lower, ofUInt8_toUInt8 hc, ih]
      · have hw : 0x80 ≤ c.toNat := by omega
        obtain ⟨byte, bytes, he, hb⟩ := encode_cons_of_wide hw cs
        rw [he]
        exact iff_of_false (lower_letters_ne_cons hb ha bytes word) (lower_ne_cons hw ha cs word)

/-- Likewise for the word that a text begins with. -/
theorem lower_letters_take_eq_iff {word : List Char} (h : Plain word) (cs : List Char) :
    lower (letters ((encode cs).take word.length)) = word
      ↔ lower (cs.take word.length) = word := by
  induction word generalizing cs with
  | nil => simp [letters, lower]
  | cons a word ih =>
    obtain ⟨ha, hword⟩ := plain_cons_iff.1 h
    cases cs with
    | nil => simp [letters, lower]
    | cons c cs =>
      by_cases hc : c.toNat < 0x80
      · have ih := ih hword cs
        simp only [letters, lower, List.map_map, List.map_take] at ih
        simp [encode_cons_of_ascii hc, letters, lower, ofUInt8_toUInt8 hc, ih]
      · have hw : 0x80 ≤ c.toNat := by omega
        obtain ⟨byte, bytes, he, hb⟩ := encode_cons_of_wide hw cs
        rw [he]
        exact iff_of_false (lower_letters_ne_cons hb ha _ word) (lower_ne_cons hw ha _ word)

theorem newlines_encode (cs : List Char) : (encode cs).countP (is (· == '\n')) = newlines cs := by
  induction cs with
  | nil => rfl
  | cons c cs ih =>
    rw [newlines, List.count_cons, ← newlines, ← ih]
    by_cases hc : c.toNat < 0x80
    · rw [encode_cons_of_ascii hc, List.countP_cons, is_toUInt8 _ hc]
    · have hw : 0x80 ≤ c.toNat := by omega
      have hzero : (String.utf8EncodeChar c).countP (is (· == '\n')) = 0 :=
        List.countP_eq_zero.2 fun byte hmem => by
          simp [(Narrow.beq (a := '\n') (by decide)).is_eq_false (wide_utf8EncodeChar hw byte hmem)]
      have hne : (c == '\n') = false := (Narrow.beq (by decide)).eq_false hw
      rw [encode_cons, List.countP_append, hzero, hne]
      simp

/-! ## Places in a source -/

theorem isBoundary_append (front src : List UInt8) (i : Nat) :
    isBoundary (front ++ src) (front.length + i) = isBoundary src i := by
  rw [isBoundary, isBoundary, List.getElem?_append_right (Nat.le_add_right ..),
    Nat.add_sub_cancel_left, List.length_append]
  cases src[i]? with
  | some byte => rfl
  | none =>
    rw [Bool.eq_iff_iff]
    simp

/-- From `i` on, the source is the bytes of a text. -/
structure At (src : List UInt8) (i : Nat) (cs : List Char) : Prop where
  drop_eq : src.drop i = encode cs
  le_length : i ≤ src.length

namespace At

variable {src : List UInt8} {i : Nat} {c : Char} {cs text rest : List Char} {p : Char → Bool}

theorem start (cs : List Char) : At (encode cs) 0 cs :=
  ⟨rfl, Nat.zero_le _⟩

theorem add_size (h : At src i cs) : i + size cs = src.length := by
  rw [size, ← h.drop_eq, List.length_drop]
  have := h.le_length
  omega

/-- The place behind a text. -/
theorem append (text : List Char) (h : At src i (text ++ rest)) : At src (i + size text) rest := by
  refine ⟨?_, ?_⟩
  · rw [← List.drop_drop, h.drop_eq, encode_append, size, List.drop_left]
  · have := h.add_size
    rw [size_append] at this
    omega

theorem behind (front rest : List Char) : At (encode (front ++ rest)) (size front) rest := by
  have := (At.start (front ++ rest)).append front
  rwa [Nat.zero_add] at this

theorem next (h : At src i (c :: cs)) (hc : c.toNat < 0x80) : At src (i + 1) cs := by
  have := h.append [c]
  rwa [size_cons_of_ascii hc] at this

theorem lt_length_iff (h : At src i cs) : i < src.length ↔ cs ≠ [] := by
  have hadd := h.add_size
  refine ⟨?_, fun hne => ?_⟩
  · rintro hlt rfl
    rw [size_nil] at hadd
    omega
  · have := size_pos hne
    omega

theorem getElem?_eq (h : At src i cs) : src[i]? = (encode cs).head? := by
  rw [← h.drop_eq, List.head?_drop]

/-- A class is seen by the byte that begins a character. -/
theorem sees (h : At src i cs) (hp : Uniform p) : Bytes.sees src i p = headIs p cs := by
  rw [Bytes.sees, h.getElem?_eq, head?_encode_any hp]

/-- The byte of a class in ASCII is the whole character, and the next byte begins the next. -/
theorem sees_next (h : At src i (c :: cs)) {a : Char → Bool} (ha : Narrow a) (hp : Uniform p) :
    (a c && Bytes.sees src (i + 1) p) = (a c && headIs p cs) := by
  cases hc : a c with
  | false => rfl
  | true => rw [(h.next (ha c hc)).sees hp]

/-- The byte that begins a character. -/
theorem getElem?_cons (h : At src i (c :: cs)) :
    ∃ byte, src[i]? = some byte ∧ ∀ p, Uniform p → is p byte = p c := by
  obtain ⟨byte, more, he, -, -⟩ := utf8EncodeChar_eq_cons c
  have hget : src[i]? = some byte := by rw [h.getElem?_eq]; simp [he]
  refine ⟨byte, hget, fun p hp => ?_⟩
  have hsees := h.sees hp
  rwa [Bytes.sees, hget, headIs_cons] at hsees

theorem index (h : At src i (c :: cs)) :
    ∃ byte, Bytes.index src i = .ok byte ∧ ∀ p, Uniform p → is p byte = p c := by
  obtain ⟨byte, hget, his⟩ := h.getElem?_cons
  exact ⟨byte, by rw [Bytes.index, hget], his⟩

theorem tail (h : At src i cs) : Bytes.tail src i = .ok (encode cs) := by
  rw [Bytes.tail, if_pos h.le_length, h.drop_eq]

/-- A run of a class, and what follows it. -/
theorem scanWhile (h : At src i cs) (hp : Uniform p) :
    Bytes.scanWhile src i p = i + size (cs.takeWhile p) := by
  rw [Bytes.scanWhile, h.drop_eq, takeWhile_encode hp, size]

theorem dropWhile (h : At src i cs) (p : Char → Bool) :
    At src (i + size (cs.takeWhile p)) (cs.dropWhile p) :=
  At.append _ (by rwa [List.takeWhile_append_dropWhile])

theorem isBoundary (h : At src i cs) : Bytes.isBoundary src i = true := by
  rw [Bytes.isBoundary, h.getElem?_eq]
  cases cs with
  | nil => simpa using h.add_size
  | cons c cs =>
    obtain ⟨byte, more, he, hfirst, -⟩ := utf8EncodeChar_eq_cons c
    simpa [he] using hfirst

theorem span (text : List Char) (h : At src i (text ++ rest)) :
    Bytes.span src i (i + size text) = .ok (encode text) := by
  rw [Bytes.span, if_pos ⟨by omega, (h.append text).le_length⟩, h.drop_eq, Nat.add_sub_cancel_left,
    encode_append, size, List.take_left]

/-- A text is cut out between two places where characters begin. -/
theorem cut (text : List Char) (h : At src i (text ++ rest)) :
    Bytes.cut src i (i + size text) = .ok (encode text) := by
  rw [Bytes.cut, h.isBoundary, (h.append text).isBoundary]
  exact h.span text

theorem cut_while (h : At src i cs) (p : Char → Bool) :
    Bytes.cut src i (i + size (cs.takeWhile p)) = .ok (encode (cs.takeWhile p)) := by
  rw [← List.takeWhile_append_dropWhile (p := p) (l := cs)] at h
  exact h.cut _

/-- Wherever a character begins, the rest of the source is a text. -/
theorem of_isBoundary (h : Bytes.isBoundary (encode cs) i = true) :
    ∃ rest, At (encode cs) i rest := by
  suffices ∃ front rest, cs = front ++ rest ∧ i = size front by
    obtain ⟨front, rest, rfl, rfl⟩ := this
    exact ⟨rest, .behind front rest⟩
  induction cs generalizing i with
  | nil => exact ⟨[], [], rfl, by simpa [Bytes.isBoundary] using h⟩
  | cons c cs ih =>
    obtain ⟨byte, more, he, -, hmore⟩ := utf8EncodeChar_eq_cons c
    have hsize : size [c] = more.length + 1 := by simp [size, he]
    by_cases hi : i < size [c]
    · cases i with
      | zero => exact ⟨[], c :: cs, rfl, rfl⟩
      | succ j =>
        -- inside the character there is no boundary
        have hlt : j < more.length := by omega
        have hget : (encode (c :: cs))[j + 1]? = some more[j] := by
          simp [he, List.getElem?_append_left, hlt]
        rw [Bytes.isBoundary, hget] at h
        exact absurd (of_decide_eq_true h) (hmore _ (List.getElem_mem hlt))
    · obtain ⟨k, rfl⟩ := Nat.exists_eq_add_of_le (Nat.le_of_not_lt hi)
      have hk : Bytes.isBoundary (encode cs) k = true := by
        have hlen : size [c] = (String.utf8EncodeChar c).length := by simp [size]
        rwa [hlen, encode_cons, isBoundary_append] at h
      obtain ⟨front, rest, rfl, rfl⟩ := ih hk
      exact ⟨c :: front, rest, rfl, (size_cons c front).symm⟩

end At

end Listing.Bytes
