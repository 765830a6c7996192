import Listing.Lexer

/-!
# A scanner over bytes

The reader of `Listing.Lexer` walks over characters and keeps what is left of the source. This is the
same reader as a program over an array of bytes would have it. It keeps a position, looks at single
bytes, cuts tokens out of the source between two positions, and goes down into strings by recursion.

Nothing about it is safe by itself, and so everything is checked. A position may lie past the end or
inside a character: `index`, `tail`, `span` and `cut` answer `Fault.outOfBounds` there. A loop may not
come to an end: where it is not plainly a walk over the bytes ahead, it is given fuel, and answers
`Fault.exhausted` when that is used up.
-/

namespace Listing.Bytes

open Text

/-! ## The source -/

/-- The bytes of a text. -/
def encode (cs : List Char) : List UInt8 :=
  cs.flatMap String.utf8EncodeChar

/-- Bytes as the characters with their numbers, one for each byte. -/
def letters (bytes : List UInt8) : List Char :=
  bytes.map Char.ofUInt8

/-- The byte belongs to a class of characters. -/
def is (p : Char → Bool) (byte : UInt8) : Bool :=
  p (Char.ofUInt8 byte)

/-- What may be left open, with a label in bytes. -/
inductive Construct where
  | string
  | comment
  | heredoc (label : List UInt8)
  | interpolation
  deriving DecidableEq, Repr

/-- Why a scan ends without an answer. -/
inductive Fault where
  /-- A construct that began on `line` was never closed. -/
  | unterminated (construct : Construct) (line : Nat)
  /-- A position out of range, or inside a character. -/
  | outOfBounds
  /-- The fuel was used up. -/
  | exhausted
  deriving DecidableEq, Repr

/-- An answer, or the fault that was met on the way to it. -/
abbrev Checked (α : Type) := Except Fault α

/-- A stretch of bytes, with the line on which it starts. -/
structure Token where
  kind : Kind
  text : List UInt8
  line : Nat
  deriving DecidableEq, Repr

/-- The token is the punctuation `c`, and nothing more. -/
def Token.isPunct (token : Token) (c : Char) : Bool :=
  token.kind == .punct && letters token.text == [c]

section Source

variable (src : List UInt8)

/-- There is a byte at `i`, and it belongs to a class. -/
def sees (i : Nat) (p : Char → Bool) : Bool :=
  src[i]?.any (is p)

/-- A character begins at `i`, or the source ends there. -/
def isBoundary (i : Nat) : Bool :=
  match src[i]? with
  | some byte => decide byte.IsUTF8FirstByte
  | none => i == src.length

/-- The byte at `i`. -/
def index (i : Nat) : Checked UInt8 :=
  match src[i]? with
  | some byte => .ok byte
  | none => .error .outOfBounds

/-- The bytes from `i` on. -/
def tail (i : Nat) : Checked (List UInt8) :=
  if i ≤ src.length then .ok (src.drop i) else .error .outOfBounds

/-- The bytes from `i` to `j`. -/
def span (i j : Nat) : Checked (List UInt8) :=
  if i ≤ j ∧ j ≤ src.length then .ok ((src.drop i).take (j - i)) else .error .outOfBounds

/-- The text from `i` to `j`: both must be boundaries. -/
def cut (i j : Nat) : Checked (List UInt8) :=
  if isBoundary src i && isBoundary src j then span src i j else .error .outOfBounds

/-- The first position from `i` on where the class ends. -/
def scanWhile (i : Nat) (p : Char → Bool) : Nat :=
  i + ((src.drop i).takeWhile (is p)).length

/-- How far ahead some bytes are first found. -/
def find (needle : List UInt8) : List UInt8 → Option Nat
  | [] => none
  | byte :: bytes =>
    if needle.isPrefixOf (byte :: bytes) then some 0 else (find needle bytes).map (· + 1)

end Source

/-! ## The scanner -/

/-- The scanner between two tokens. -/
structure Cursor where
  pos : Nat := 0
  line : Nat := 1
  /-- Inside the program. -/
  inCode : Bool := false
  tokens : List Token := []
  deriving DecidableEq, Repr

/-- The last kind that was not whitespace or comment. -/
def Cursor.previous (cursor : Cursor) : Option Kind :=
  (cursor.tokens.reverse.map Token.kind).find? Kind.isSignificant

/-- What ends the body of a string. -/
inductive Terminator where
  | quote (c : Char)
  | heredoc (label : List UInt8)
  deriving DecidableEq, Repr

def Terminator.construct : Terminator → Construct
  | .quote _ => .string
  | .heredoc label => .heredoc label

/-- The byte is the quote that ends the body. -/
def Terminator.isQuote (byte : UInt8) : Terminator → Bool
  | .quote c => is (· == c) byte
  | .heredoc _ => false

section Scanner

variable (src : List UInt8)

/-- The bytes from here to `stop` as one token. -/
def emit (kind : Kind) (stop : Nat) (cursor : Cursor) : Checked Cursor := do
  let text ← cut src cursor.pos stop
  return { cursor with
    pos := stop
    line := cursor.line + text.countP (is (· == '\n'))
    tokens := cursor.tokens ++ [⟨kind, text, cursor.line⟩] }

/-- The bytes from here to `stop` as one token, if there are any. -/
def flush (kind : Kind) (stop : Nat) (cursor : Cursor) : Checked Cursor :=
  if cursor.pos < stop then emit src kind stop cursor else .ok cursor

/-! ### Around the program -/

/-- The opening tag that begins with the two bytes at `i`, and where it ends. -/
def openTagAt (i : Nat) : Checked (Option (Kind × Nat)) := do
  let rest ← tail src (i + 2)
  if sees rest 0 (· == '=') then return some (.tag .openEcho, i + 3)
  else if lower (letters (rest.take 3)) = ['p', 'h', 'p'] then
    match rest[3]? with
    | none => return some (.tag .open_, i + 5)
    | some byte => return if is isSpace byte then some (.tag .open_, i + 6) else none
  else return none

/-- Text up to an opening tag and the tag, or text to the end; tags are looked for from `search`
on. -/
def lexInlineHtml : Nat → Nat → Cursor → Checked Cursor
  | 0, _, _ => .error .exhausted
  | fuel + 1, search, cursor => do
    let rest ← tail src search
    match find (encode ['<', '?']) rest with
    | none => emit src .html src.length cursor
    | some ahead =>
      match ← openTagAt src (search + ahead) with
      | none => lexInlineHtml fuel (search + ahead + 2) cursor
      | some (kind, stop) =>
        let cursor ← flush src .html (search + ahead) cursor
        let cursor ← emit src kind stop cursor
        return { cursor with inCode := true }

/-! ### Single tokens -/

def lexCloseTag (cursor : Cursor) : Checked Cursor := do
  let stop :=
    if sees src (cursor.pos + 2) (· == '\n') then cursor.pos + 3 else cursor.pos + 2
  let cursor ← emit src (.tag .close) stop cursor
  return { cursor with inCode := false }

/-- The number of bytes before the end of the line or a closing tag. -/
def lineLength : List UInt8 → Nat
  | [] => 0
  | byte :: bytes =>
    if is (· == '\n') byte then 0
    else if is (· == '?') byte && sees bytes 0 (· == '>') then 0
    else lineLength bytes + 1

def lexLineComment (cursor : Cursor) : Checked Cursor :=
  emit src .comment (cursor.pos + lineLength (src.drop cursor.pos)) cursor

def lexBlockComment (cursor : Cursor) : Checked Cursor := do
  let inside ← tail src (cursor.pos + 2)
  match find (encode ['*', '/']) inside with
  | none => .error (.unterminated .comment cursor.line)
  | some ahead =>
    let rest ← tail src cursor.pos
    let doc := (encode ['/', '*', '*']).isPrefixOf rest && sees src (cursor.pos + 3) isSpace
    emit src (if doc then .docComment else .comment) (cursor.pos + 2 + ahead + 2) cursor

/-- The cast at `i`, and where it ends. -/
def castAt (i : Nat) : Checked (Option (Kind × Nat)) := do
  let start := scanWhile src (i + 1) isBlank
  let wordEnd := scanWhile src start Char.isAlpha
  let stop := scanWhile src wordEnd isBlank
  if wordEnd = start || !sees src stop (· == ')') then return none
  else
    let word ← cut src start wordEnd
    match Lexer.Sign.castNamed? (String.ofList (lower (letters word))) with
    | none => return none
    | some kind => return some (.cast kind, stop + 1)

/-- Where the exponent that begins at `i` ends. -/
def exponentEnd (i : Nat) : Option Nat :=
  if sees src i (·.toLower == 'e') then
    let digits := if sees src (i + 1) (fun c => c == '+' || c == '-') then i + 2 else i + 1
    if sees src digits Char.isDigit then some (scanWhile src digits isDigitOrGroup) else none
  else none

/-- The kind of a run of digits. -/
def wholeKind (text : List UInt8) : Checked Kind :=
  if 1 < text.length && sees text 0 (· == '0') then do
    let digits ← cut text 1 text.length
    return Lexer.Number.integerKind 8 0 (letters digits)
  else .ok (Lexer.Number.integerKind 10 0 (letters text))

def lexDecimal (cursor : Cursor) : Checked Cursor := do
  let whole := scanWhile src cursor.pos isDigitOrGroup
  let point := sees src whole (· == '.')
  let stop := if point then scanWhile src (whole + 1) isDigitOrGroup else whole
  match exponentEnd src stop with
  | some stop => emit src .float stop cursor
  | none =>
    if point then emit src .float stop cursor
    else
      let text ← cut src cursor.pos stop
      let kind ← wholeKind text
      emit src kind stop cursor

def lexNumber (cursor : Cursor) : Checked Cursor := do
  let first ← index src cursor.pos
  let radix :=
    if is (· == '0') first then
      src[cursor.pos + 1]?.bind fun byte => Lexer.Number.radix? (Char.ofUInt8 byte)
    else none
  match radix with
  | none => lexDecimal src cursor
  | some radix =>
    let stop := scanWhile src (cursor.pos + 2) (Lexer.Number.isDigitOf radix)
    if cursor.pos + 2 < stop then
      let digits ← cut src (cursor.pos + 2) stop
      emit src (Lexer.Number.integerKind radix 0 (letters digits)) stop cursor
    else lexDecimal src cursor

/-- Where the `from` ends that makes `yield from` of a word that ends at `i`. -/
def yieldFromEnd (i : Nat) : Checked (Option Nat) := do
  let gap := scanWhile src i isBlank
  let rest ← tail src gap
  if i < gap && lower (letters (rest.take 4)) = ['f', 'r', 'o', 'm']
      && !sees src (gap + 4) isNameChar then
    return some (gap + 4)
  else return none

/-- A gap and then a name follow a word that ends at `i`. -/
def nameFollows (i : Nat) : Bool :=
  let gap := scanWhile src i isSpace
  i < gap && sees src gap isNameStart

def lexIdentifier (cursor : Cursor) : Checked Cursor := do
  let stop := scanWhile src cursor.pos isNameChar
  let word ← cut src cursor.pos stop
  match Lexer.Word.kindAfter cursor.previous (letters word) with
  | .flow .yield =>
    match ← yieldFromEnd src stop with
    | some stop => emit src (.flow .yieldFrom) stop cursor
    | none => emit src (.flow .yield) stop cursor
  | .keyword .enum =>
    emit src (if nameFollows src stop then .keyword .enum else .name) stop cursor
  | kind => emit src kind stop cursor

def lexOperator (cursor : Cursor) : Checked Cursor := do
  let rest ← tail src cursor.pos
  match Lexer.Sign.operators.find? fun entry => (encode entry.1).isPrefixOf rest with
  | some entry => emit src entry.2 (cursor.pos + (encode entry.1).length) cursor
  | none =>
    let byte ← index rest 0
    emit src (if is isPunctuation byte then .punct else .badCharacter) (cursor.pos + 1) cursor

/-! ### Strings -/

/-- The position of the closing quote of a body that begins at `i` with these bytes. A backslash
skips the byte after it, even if that is only the first of a character. -/
def closingQuote (quote : Char) : Nat → List UInt8 → Option Nat
  | _, [] => none
  | i, byte :: bytes =>
    if is (· == '\\') byte then
      match bytes with
      | [] => none
      | _ :: bytes => closingQuote quote (i + 2) bytes
    else if is (· == quote) byte then some i
    else closingQuote quote (i + 1) bytes

/-- An interpolation begins somewhere that no backslash skips. -/
def hasInterpolation : List UInt8 → Bool
  | [] => false
  | byte :: bytes =>
    if is (· == '\\') byte then
      match bytes with
      | [] => false
      | _ :: bytes => hasInterpolation bytes
    else if is (· == '$') byte && sees bytes 0 (fun c => isNameStart c || c == '\x7b') then true
    else if is (· == '\x7b') byte && sees bytes 0 (· == '$') then true
    else hasInterpolation bytes

/-- A string without interpolation, its quotes at `opening` and `closing`. -/
def emitPlain (opening closing : Nat) (cursor : Cursor) : Checked Cursor := do
  let body ← span src opening closing
  if body.any (is (· == '\n')) then
    let cursor ← emit src .punct (opening + 1) cursor
    let cursor ← emit src .literal closing cursor
    emit src .punct (closing + 1) cursor
  else emit src (.quoted .whole) (closing + 1) cursor

/-- A string in single quotes; `mark` is the length of what stands before the quote. -/
def lexSingleQuoted (mark : Nat) (cursor : Cursor) : Checked Cursor :=
  let opening := cursor.pos + mark
  match closingQuote Lexer.Quoted.single (opening + 1) (src.drop (opening + 1)) with
  | none => .error (.unterminated .string cursor.line)
  | some closing => emitPlain src opening closing cursor

/-- The label at the start of the line that begins at `i`, and where it ends. -/
def heredocCloseAt (i : Nat) (label : List UInt8) : Checked (Option Nat) := do
  let start := scanWhile src i isBlank
  let rest ← tail src start
  if label.isPrefixOf rest && !sees src (start + label.length) isNameChar then
    return some (start + label.length)
  else return none

/-- The body ends at `i`, where a heredoc's label begins a line. -/
def closesHeredoc (terminator : Terminator) (i : Nat) : Checked Bool :=
  match terminator with
  | .quote _ => .ok false
  | .heredoc label =>
    if i = 0 then .ok false
    else do
      let before ← index src (i - 1)
      if is (· == '\n') before then
        let found ← heredocCloseAt src i label
        return found.isSome
      else return false

/-- What ends a stretch of literal text. -/
inductive Mark where
  | close
  | variable_
  | dollarBrace
  | brace
  deriving DecidableEq, Repr

/-- Where literal text ends that begins at `i` with these bytes, and what is there. -/
def nextMark (terminator : Terminator) : Nat → List UInt8 → Checked (Option (Nat × Mark))
  | _, [] => .ok none
  | i, byte :: bytes =>
    match closesHeredoc src terminator i with
    | .error fault => .error fault
    | .ok true => .ok (some (i, .close))
    | .ok false =>
      if is (· == '\\') byte then
        match bytes with
        | [] => .ok none
        | _ :: bytes => nextMark terminator (i + 2) bytes
      else if terminator.isQuote byte then .ok (some (i, .close))
      else if is (· == '$') byte && sees src (i + 1) isNameStart then .ok (some (i, .variable_))
      else if is (· == '$') byte && sees src (i + 1) (· == '\x7b') then
        .ok (some (i, .dollarBrace))
      else if is (· == '\x7b') byte && sees src (i + 1) (· == '$') then .ok (some (i, .brace))
      else nextMark terminator (i + 1) bytes

/-- The key that begins at `i`, and where it ends. -/
def keyAt (i : Nat) : Option (Kind × Nat) :=
  if sees src i (fun c => c == '-' || c.isDigit) then
    let digits := if sees src i (· == '-') then i + 1 else i
    let stop := scanWhile src digits Char.isDigit
    if digits < stop then some (.var .offset, stop) else none
  else if sees src i (· == '$') && sees src (i + 1) isNameStart then
    some (.variable_, scanWhile src (i + 1) isNameChar)
  else if sees src i isNameStart then some (.name, scanWhile src i isNameChar)
  else none

/-- One key in brackets, after a variable. -/
def lexOffset (cursor : Cursor) : Checked Cursor :=
  match keyAt src (cursor.pos + 1) with
  | none => .ok cursor
  | some (kind, stop) =>
    if sees src stop (· == ']') then do
      let cursor ← emit src .punct (cursor.pos + 1) cursor
      let cursor ← emit src kind stop cursor
      emit src .punct (stop + 1) cursor
    else .ok cursor

/-- A member of a variable, after an arrow that ends at `stop`. -/
def lexMember (mark : Grammar) (stop : Nat) (cursor : Cursor) : Checked Cursor := do
  let cursor ← emit src (.grammar mark) stop cursor
  emit src .name (scanWhile src cursor.pos isNameChar) cursor

/-- One key or member of the variable before. -/
def lexAccess (cursor : Cursor) : Checked Cursor := do
  let rest ← tail src cursor.pos
  if (encode ['[']).isPrefixOf rest then lexOffset src cursor
  else if (encode ['-', '>']).isPrefixOf rest && sees src (cursor.pos + 2) isNameStart then
    lexMember src .arrow (cursor.pos + 2) cursor
  else if (encode ['?', '-', '>']).isPrefixOf rest && sees src (cursor.pos + 3) isNameStart then
    lexMember src .nullsafeArrow (cursor.pos + 3) cursor
  else return cursor

/-- A variable in a string, with one key or member. -/
def lexSimpleInterpolation (cursor : Cursor) : Checked Cursor := do
  let cursor ← emit src .variable_ (scanWhile src (cursor.pos + 1) isNameChar) cursor
  lexAccess src cursor

/-- A dollar sign and a brace, and the name after them if the brace or a bracket follows it. -/
def lexDollarBrace (cursor : Cursor) : Checked Cursor := do
  let cursor ← emit src (.grammar .dollarCurlyOpen) (cursor.pos + 2) cursor
  let stop := scanWhile src cursor.pos isNameChar
  if sees src cursor.pos isNameStart && sees src stop (fun c => c == '[' || c == '\x7d') then
    emit src (.var .braced) stop cursor
  else return cursor

/-! ### Heredocs -/

/-- The opening line of a heredoc. -/
structure Header where
  label : List UInt8
  /-- Nothing in the string is replaced. -/
  raw : Bool
  /-- The position after the newline. -/
  stop : Nat
  deriving DecidableEq, Repr

/-- The quote at `i`, if it can stand around a label. -/
def quoteAt (i : Nat) : Option Char :=
  if sees src i (· == Lexer.Quoted.single) then some Lexer.Quoted.single
  else if sees src i (· == Lexer.Quoted.double) then some Lexer.Quoted.double
  else none

/-- Where the line of a label ends that is over at `i`, but for its quote. -/
def labelLineEnd (quote : Option Char) (i : Nat) : Option Nat :=
  let stop :=
    match quote with
    | none => some i
    | some c => if sees src i (· == c) then some (i + 1) else none
  stop.bind fun stop => if sees src stop (· == '\n') then some (stop + 1) else none

/-- The label at `start`, behind its quote if there is one. -/
def labelAt (quote : Option Char) (start : Nat) : Checked (Option Header) :=
  if !sees src start isNameStart then .ok none
  else do
    let labelEnd := scanWhile src start isNameChar
    let label ← cut src start labelEnd
    return (labelLineEnd src quote labelEnd).map fun stop =>
      ⟨label, quote == some Lexer.Quoted.single, stop⟩

/-- The opening line that begins at `i`. -/
def headerAt (i : Nat) : Checked (Option Header) := do
  let rest ← tail src i
  if !(encode ['<', '<', '<']).isPrefixOf rest then return none
  else
    let gap := scanWhile src (i + 3) isBlank
    match quoteAt src gap with
    | none => labelAt src none gap
    | some c => labelAt src (some c) (gap + 1)

/-- The first line from `i` on that closes the label. -/
def findHeredocClose (label : List UInt8) : Nat → Nat → Checked (Option Nat)
  | 0, _ => .error .exhausted
  | fuel + 1, i => do
    match ← heredocCloseAt src i label with
    | some _ => return some i
    | none =>
      let rest ← tail src i
      match find (encode ['\n']) rest with
      | none => return none
      | some ahead => findHeredocClose label fuel (i + ahead + 1)

/-- The label that closes a heredoc, which began on `line`. -/
def lexHeredocEnd (label : List UInt8) (line : Nat) (cursor : Cursor) : Checked Cursor := do
  match ← heredocCloseAt src cursor.pos label with
  | none => .error (.unterminated (.heredoc label) line)
  | some stop => emit src (.grammar .endHeredoc) stop cursor

/-! ### Program text

The body of a string is read by `encapsed`, which is given the terminator, the line on which the
string began and the cursor, and stops in front of the terminator. -/

variable (encapsed : Terminator → Nat → Cursor → Checked Cursor)

/-- A string in double quotes; `mark` is the length of what stands before the quote. -/
def lexDoubleQuoted (mark : Nat) (cursor : Cursor) : Checked Cursor :=
  let line := cursor.line
  let opening := cursor.pos + mark
  match closingQuote Lexer.Quoted.double (opening + 1) (src.drop (opening + 1)) with
  | none => .error (.unterminated .string line)
  | some closing => do
    let body ← span src (opening + 1) closing
    if hasInterpolation body then
      let cursor ← emit src .punct (opening + 1) cursor
      let cursor ← encapsed (.quote Lexer.Quoted.double) line cursor
      emit src .punct (cursor.pos + 1) cursor
    else emitPlain src opening closing cursor

def lexBacktick (cursor : Cursor) : Checked Cursor := do
  let line := cursor.line
  let cursor ← emit src .punct (cursor.pos + 1) cursor
  let cursor ← encapsed (.quote Lexer.Quoted.back) line cursor
  emit src .punct (cursor.pos + 1) cursor

def lexHeredoc (header : Header) (cursor : Cursor) : Checked Cursor := do
  let line := cursor.line
  let cursor ← emit src (.grammar .startHeredoc) header.stop cursor
  let cursor ←
    if header.raw then
      match ← findHeredocClose src header.label (src.length + 1) cursor.pos with
      | none => .error (.unterminated (.heredoc header.label) line)
      | some stop => flush src .literal stop cursor
    else encapsed (.heredoc header.label) line cursor
  lexHeredocEnd src header.label line cursor

/-- A token by its first byte, when it is neither a heredoc nor a cast. -/
def lexPlain (byte : UInt8) (cursor : Cursor) : Checked Cursor :=
  let next := sees src (cursor.pos + 1)
  if is isSpace byte then emit src .whitespace (scanWhile src cursor.pos isSpace) cursor
  else if is (· == '?') byte && next (· == '>') then lexCloseTag src cursor
  else if is (· == '#') byte && next (· == '[') then
    emit src (.grammar .attribute) (cursor.pos + 2) cursor
  else if is (· == '#') byte then lexLineComment src cursor
  else if is (· == '/') byte && next (· == '/') then lexLineComment src cursor
  else if is (· == '/') byte && next (· == '*') then lexBlockComment src cursor
  else if is (· == '$') byte && next isNameStart then
    emit src .variable_ (scanWhile src (cursor.pos + 1) isNameChar) cursor
  else if is (· == Lexer.Quoted.single) byte then lexSingleQuoted src 0 cursor
  else if is (· == Lexer.Quoted.double) byte then lexDoubleQuoted src encapsed 0 cursor
  else if is (fun c => c == 'b' || c == 'B') byte && next (· == Lexer.Quoted.single) then
    lexSingleQuoted src 1 cursor
  else if is (fun c => c == 'b' || c == 'B') byte && next (· == Lexer.Quoted.double) then
    lexDoubleQuoted src encapsed 1 cursor
  else if is (· == Lexer.Quoted.back) byte then lexBacktick src encapsed cursor
  else if is Char.isDigit byte then lexNumber src cursor
  else if is (· == '.') byte && next Char.isDigit then lexNumber src cursor
  else if is (· == '\\') byte then emit src .separator (cursor.pos + 1) cursor
  else if is isNameStart byte then lexIdentifier src cursor
  else lexOperator src cursor

/-- One token of program text. -/
def lexToken (cursor : Cursor) : Checked Cursor := do
  let byte ← index src cursor.pos
  let header ← (if is (· == '<') byte then headerAt src cursor.pos else .ok none : Checked _)
  match header with
  | some header => lexHeredoc src encapsed header cursor
  | none =>
    let cast ← (if is (· == '(') byte then castAt src cursor.pos else .ok none : Checked _)
    match cast with
    | some (kind, stop) => emit src kind stop cursor
    | none => lexPlain src encapsed byte cursor

end Scanner

/-! ### Bodies of strings -/

section Bodies

variable (src : List UInt8)

mutual

/-- The body of a string, up to its terminator. -/
def lexEncapsed : Nat → Terminator → Nat → Cursor → Checked Cursor
  | 0, _, _, _ => .error .exhausted
  | fuel + 1, terminator, line, cursor => do
    match ← nextMark src terminator cursor.pos (src.drop cursor.pos) with
    | none => .error (.unterminated terminator.construct line)
    | some (i, .close) => flush src .literal i cursor
    | some (i, .variable_) =>
      let cursor ← flush src .literal i cursor
      let cursor ← lexSimpleInterpolation src cursor
      lexEncapsed fuel terminator line cursor
    | some (i, .dollarBrace) =>
      let cursor ← flush src .literal i cursor
      let opened := cursor.line
      let cursor ← lexDollarBrace src cursor
      let cursor ← lexEmbedded fuel 1 opened cursor
      lexEncapsed fuel terminator line cursor
    | some (i, .brace) =>
      let cursor ← flush src .literal i cursor
      let opened := cursor.line
      let cursor ← emit src (.grammar .curlyOpen) (cursor.pos + 1) cursor
      let cursor ← lexEmbedded fuel 1 opened cursor
      lexEncapsed fuel terminator line cursor

/-- Code in a string, up to the brace that brings `depth` down to zero. -/
def lexEmbedded : Nat → Nat → Nat → Cursor → Checked Cursor
  | 0, _, _, _ => .error .exhausted
  | fuel + 1, depth, line, cursor =>
    if src.length ≤ cursor.pos || !cursor.inCode then
      .error (.unterminated .interpolation line)
    else do
      let cursor ← lexToken src (lexEncapsed fuel) cursor
      match cursor.tokens.getLast? with
      | none => lexEmbedded fuel depth line cursor
      | some last =>
        if last.isPunct '\x7b' then lexEmbedded fuel (depth + 1) line cursor
        else if last.isPunct '\x7d' then
          if depth - 1 = 0 then return cursor else lexEmbedded fuel (depth - 1) line cursor
        else lexEmbedded fuel depth line cursor

end

/-! ### Whole sources -/

/-- The rest of the statement that halts the program. -/
def lexHalting : Nat → Cursor → Checked Cursor
  | 0, _ => .error .exhausted
  | fuel + 1, cursor =>
    if cursor.pos < src.length then do
      let cursor ← lexToken src (lexEncapsed src fuel) cursor
      if cursor.tokens.getLast?.any fun last => last.isPunct ';' || last.kind == .tag .close then
        return cursor
      else lexHalting fuel cursor
    else return cursor

/-- That statement, and the data behind it. -/
def lexHalt (fuel : Nat) (cursor : Cursor) : Checked Cursor := do
  let cursor ← lexHalting src fuel cursor
  if cursor.pos < src.length then emit src .html src.length cursor else return cursor

/-- The tokens from the cursor to the end of the source. -/
def run : Nat → Cursor → Checked (List Token)
  | 0, _ => .error .exhausted
  | fuel + 1, cursor =>
    if cursor.pos < src.length then
      if !cursor.inCode then do
        let cursor ← lexInlineHtml src (src.length + 1) cursor.pos cursor
        run fuel cursor
      else do
        let cursor ← lexToken src (lexEncapsed src fuel) cursor
        let cursor ←
          if cursor.tokens.getLast?.any fun last => last.kind == .haltCompiler then
            lexHalt src fuel cursor
          else .ok cursor
        run fuel cursor
    else return cursor.tokens

end Bodies

/-- The tokens of a source, by its bytes. -/
def tokenize (source : String) : Checked (List Token) :=
  run (encode source.toList) ((encode source.toList).length + 1) {}

end Listing.Bytes
