import Listing.History
import Listing.Role

/-!
# Labelled text

A `Span` is a piece of text with the classes and attributes it is displayed with. Most tokens get
the label of their kind; a name gets the label of its role besides; a string loses its quotes, which
move to an attribute; whitespace stays bare.
-/

namespace Listing

/-- Text to display. -/
structure Span where
  /-- The classes, or none for bare text. -/
  label : Option String
  /-- Keys and values, in order. -/
  attributes : List (String × String) := []
  text : String
  deriving DecidableEq, Repr

namespace Span

/-- A quote that opens a string. -/
def isQuote (c : Char) : Bool :=
  c == '\x27' || c == '\x22'

/-- The mark of a binary string, and the string after it. -/
def splitMark : List Char → List Char × List Char
  | c :: d :: cs =>
    if (c = 'b' ∨ c = 'B') ∧ isQuote d then ([c], d :: cs) else ([], c :: d :: cs)
  | cs => ([], cs)

/-- The text without a last character `c`. -/
def dropLast (c : Char) (cs : List Char) : List Char :=
  if cs.getLast? = some c then cs.dropLast else cs

/-- A string: its first character is its quote, which is shown by an attribute and not as text. -/
def ofString (label text : String) : Span :=
  let parts := splitMark text.toList
  match parts.2 with
  | [] => { label := some label, text }
  | quote :: inner =>
    { label := some label
      attributes :=
        ("data-quote", String.singleton quote)
          :: (if parts.1.isEmpty then [] else [("data-prefix", String.ofList parts.1)])
      text := String.ofList (dropLast quote inner) }

/-- A name, with its role if it has one. -/
def ofName (label text : String) (role : Option Role) : Span :=
  match role with
  | some role => { label := some (label ++ " " ++ role.label), text }
  | none => { label := some label, text }

/-- The span for a token. The newest entry of the history is the token itself; `ahead` are the
tokens after it. -/
def ofToken (token : Token) (history : History) (ahead : List Token) : Span :=
  match token.kind with
  | .whitespace => { label := none, text := token.text }
  | .quoted .whole => ofString token.kind.label token.text
  | .variable_ =>
    if token.text = "$this" then { label := some (token.kind.label ++ " this"), text := token.text }
    else { label := some token.kind.label, text := token.text }
  | .name =>
    ofName token.kind.label token.text
      (Role.resolve token.text history.toList.tail (ahead.take 2))
  | _ => { label := some token.kind.label, text := token.text }

end Span

end Listing
