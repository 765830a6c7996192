import Listing.Token

/-!
# Roles of names

What a bare name stands for is guessed from its neighbours: the two tokens after it, and the tokens
before it, newest first. The tokens after it either decide, or leave `Hints` that the scan of the
tokens before it uses.
-/

namespace Listing

/-- What a name stands for. -/
inductive Role where
  | null
  | bool
  | member
  | class_
  | namespace_
  | constant
  | function
  /-- A class given as the type of a result. -/
  | classReturn
  deriving DecidableEq, Repr

/-- What the tokens after a name suggest. -/
structure Hints where
  /-- An opening parenthesis follows. -/
  call : Bool := false
  /-- Whitespace and an opening brace follow. -/
  block : Bool := false
  deriving DecidableEq, Repr

namespace Role

/-- The classes that a role adds to a label. -/
def label : Role → String
  | .null => "null"
  | .bool => "bool"
  | .member => "member"
  | .class_ => "class"
  | .namespace_ => "namespace"
  | .constant => "constant"
  | .function => "function"
  | .classReturn => "class return"

/-- Names of values. -/
def ofLiteral? (text : String) : Option Role :=
  if text = "null" then some .null
  else if text = "true" ∨ text = "false" then some .bool
  else none

/-- Letters and underscores only, the letters all capitals. -/
def isConstantName (text : String) : Bool :=
  !text.toList.isEmpty && text.toList.all fun c => c.isUpper || c == '_'

/-- What the tokens after a name decide, and what they suggest. -/
def lookAhead : List Token → Option Role × Hints
  | [] => (none, {})
  | first :: more =>
    if first.kind.isMemberAccess then (some .member, {})
    else
      match first.kind with
      | .doubleColon => (some .class_, {})
      | .separator => (some .namespace_, {})
      | .variable_ => (some .class_, {})
      | .whitespace =>
        match more.head? with
        | none => (none, {})
        | some second =>
          if second.kind = .variable_ ∨ second.kind = .op .ellipsis then (some .class_, {})
          else (none, { block := second.isPunct '\x7b' })
      | _ => (none, { call := first.isPunct '(' })

/-- The role that a token before the name gives it, when no call follows. -/
def afterKind? (hints : Hints) (kind : Kind) : Option Role :=
  match kind with
  | .keyword .const | .doubleColon => some .constant
  | .grammar .arrow | .grammar .nullsafeArrow => some .member
  | .keyword .extends_ | .keyword .implements | .keyword .class_ | .keyword .use | .separator =>
    some .class_
  | _ => if hints.block then some .classReturn else none

/-- The role that the tokens before a name give it. They come newest first; whitespace does not
count. `ahead` are the tokens after the name, of which two matter. -/
def lookBehind (hints : Hints) (ahead : List Token) : List Token → Option Role
  | [] => if hints.call then some .function else none
  | token :: before =>
    if token.kind = .punct then
      if hints.call then some .function
      else if token.isPunct ';' then none
      else if token.isPunct ':' && (ahead.take 2).any (·.isPunct '\x7b') then some .classReturn
      else lookBehind hints ahead before
    else if token.kind.isWhitespace then lookBehind hints ahead before
    else if hints.call then
      -- back over the rest of a qualified name
      match token.kind with
      | .separator | .name => lookBehind hints ahead before
      | .keyword .new => some .class_
      | _ => some .function
    else afterKind? hints token.kind

/-- The role of a name between the tokens before it, newest first, and those after it. -/
def resolve (text : String) (before ahead : List Token) : Option Role :=
  match ofLiteral? text with
  | some role => some role
  | none =>
    match lookAhead ahead with
    | (some role, _) => some role
    | (none, hints) =>
      if !hints.call && isConstantName text then some .constant else lookBehind hints ahead before

end Role

end Listing
