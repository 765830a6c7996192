/-!
# Reading bytes as text

UTF-8 read byte by byte. Bytes that are no text are replaced, one `U+FFFD` for each longest
beginning of a character that breaks off, and the byte that broke it is read afresh.
-/

namespace Listing.Text.Utf8

/-- The character that stands for bytes that are no text. -/
def replacement : Char := '\uFFFD'

/-- The reader between two bytes. -/
inductive State where
  | ready
  /-- Inside a character: `more` bytes are wanted after the next, which lies between `least` and
  `greatest`; `value` holds the bits so far. -/
  | within (more least greatest value : Nat)
  deriving DecidableEq, Repr

/-- A byte that begins a character, and what it gives at once. -/
def first (byte : Nat) : List Char × State :=
  if byte < 0x80 then ([Char.ofNat byte], .ready)
  else if byte < 0xC2 then ([replacement], .ready)
  else if byte < 0xE0 then ([], .within 0 0x80 0xBF (byte - 0xC0))
  else if byte < 0xF0 then
    -- no shorter form would do, and no surrogates
    ([], .within 1 (if byte = 0xE0 then 0xA0 else 0x80) (if byte = 0xED then 0x9F else 0xBF)
      (byte - 0xE0))
  else if byte < 0xF5 then
    -- no shorter form would do, and nothing above the last code point
    ([], .within 2 (if byte = 0xF0 then 0x90 else 0x80) (if byte = 0xF4 then 0x8F else 0xBF)
      (byte - 0xF0))
  else ([replacement], .ready)

/-- One byte: the characters it completes, and the reader after it. -/
def step (state : State) (byte : Nat) : List Char × State :=
  match state with
  | .ready => first byte
  | .within more least greatest value =>
    if least ≤ byte ∧ byte ≤ greatest then
      let value := value * 64 + (byte - 0x80)
      match more with
      | 0 => ([Char.ofNat value], .ready)
      | more + 1 => ([], .within more 0x80 0xBF value)
    else
      let again := first byte
      (replacement :: again.1, again.2)

/-- The characters from here to the last byte. -/
def decodeFrom : State → List UInt8 → List Char
  | .ready, [] => []
  | .within .., [] => [replacement]
  | state, byte :: bytes =>
    (step state byte.toNat).1 ++ decodeFrom (step state byte.toNat).2 bytes

/-- The text that bytes spell. -/
def decode (bytes : ByteArray) : String :=
  String.ofList (decodeFrom .ready bytes.data.toList)

end Listing.Text.Utf8
