import Listing.Text.Cut

/-!
# Newline conventions

Everything after this module knows one newline, the line feed. A text that uses carriage returns is
brought to that form first, so a line break is exactly one character whatever editor wrote it.
-/

namespace Listing

/-- The newline convention of a text. -/
inductive LineEnding where
  | lf
  | crlf
  | cr
  deriving DecidableEq, Repr

namespace LineEnding

/-- The text holds a carriage return followed by a line feed. -/
def hasCrlf : List Char → Bool
  | [] => false
  | c :: cs => (c == '\r' && cs.head? == some '\n') || hasCrlf cs

/-- One pair is enough to call a text `crlf`; failing that, one carriage return to call it `cr`. -/
def detect (cs : List Char) : LineEnding :=
  if hasCrlf cs then .crlf
  else if cs.contains '\r' then .cr
  else .lf

/-- Each pair of carriage return and line feed becomes one line feed. -/
def joinPairs : List Char → List Char
  | [] => []
  | c :: cs => if c = '\r' ∧ cs.head? = some '\n' then joinPairs cs else c :: joinPairs cs

/-- Each carriage return becomes a line feed. -/
def feedReturns (cs : List Char) : List Char :=
  cs.map fun c => if c = '\r' then '\n' else c

/-- The text with line feeds for newlines. -/
def normalize (cs : List Char) : List Char :=
  match detect cs with
  | .lf => cs
  | .crlf | .cr => feedReturns (joinPairs cs)

end LineEnding

/-- The text with line feeds for newlines. -/
def normalizeNewlines (text : String) : String :=
  String.ofList (LineEnding.normalize text.toList)

end Listing
