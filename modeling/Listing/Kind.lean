import Listing.Kind.Word
import Listing.Kind.Symbol

/-!
# Kinds of token

Every token has one kind, and the set of kinds is closed. A kind belongs to a family, and the family
decides how it is labelled: `Kind.label` is the family's class, followed by the name of the kind
where the family has more than one member.
-/

namespace Listing

/-- The lexical category of a token. -/
inductive Kind where
  | keyword (word : Keyword)
  | flow (word : Flow)
  | callable
  | cast (cast : Cast)
  | tag (tag : Tag)
  | op (op : Op)
  /-- A character that fits nowhere. -/
  | badCharacter
  | magic (constant : Magic)
  | construct (construct : Construct)
  | var (var : Var)
  | quoted (text : Quoted)
  | float
  | int
  | grammar (mark : Grammar)
  | comment
  | docComment
  /-- Text outside the tags. -/
  | html
  /-- A bare identifier. -/
  | name
  /-- Punctuation; the character is the text of the token. -/
  | punct
  deriving DecidableEq, Repr

namespace Kind

@[match_pattern]
abbrev whitespace : Kind := .grammar .whitespace

@[match_pattern]
abbrev variable_ : Kind := .var .plain

@[match_pattern]
abbrev literal : Kind := .quoted .piece

@[match_pattern]
abbrev doubleColon : Kind := .op .doubleColon

@[match_pattern]
abbrev separator : Kind := .grammar .separator

@[match_pattern]
abbrev haltCompiler : Kind := .construct .haltCompiler

/-- All kinds, in the order of listing. -/
def all : List Kind :=
  Keyword.all.map .keyword ++ Flow.all.map .flow ++ [.callable] ++ Cast.all.map .cast
    ++ Tag.all.map .tag ++ Op.all.map .op ++ [.badCharacter] ++ Magic.all.map .magic
    ++ Construct.all.map .construct ++ Var.all.map .var ++ Quoted.all.map .quoted
    ++ [.float, .int] ++ Grammar.all.map .grammar ++ [.comment, .docComment, .html, .name, .punct]

/-- The name under which a kind is listed. -/
def listedName : Kind → String
  | .keyword word => word.name
  | .flow word => word.name
  | .callable => "callable"
  | .cast c => c.name
  | .tag t => t.name
  | .op o => o.name
  | .badCharacter => "bad-character"
  | .magic m => m.name
  | .construct c => c.name
  | .var v => v.name
  | .quoted q => q.name
  | .float => "dnumber"
  | .int => "lnumber"
  | .grammar g => g.name
  | .comment => "comment"
  | .docComment => "doc-comment"
  | .html => "inline-html"
  | .name => "string"
  | .punct => "punct"

/-- The kind listed under a name. -/
def ofListedName? (name : String) : Option Kind :=
  all.find? fun kind => kind.listedName == name

/-- The word that stands for a kind in JSON output. -/
def key : Kind → String
  | .keyword word => word.key
  | .flow word => word.key
  | .float => "d-number"
  | .int => "l-number"
  | .name => "name"
  | kind => kind.listedName

/-- The classes a token of this kind is displayed with. -/
def label : Kind → String
  | .keyword word => "keyword " ++ word.name
  | .flow word => "keyword flow " ++ word.name
  | .callable => "type callable"
  | .cast c => "cast " ++ c.name
  | .tag t => "tag " ++ t.name
  | .op o => "op " ++ o.name
  | .badCharacter => "char bad-character"
  | .magic m => "constant " ++ m.name
  | .construct c => "func " ++ c.name
  | .var v => "var " ++ v.name
  | .quoted q => "string " ++ q.name
  | .float => "float"
  | .int => "int"
  | .grammar g => "g " ++ g.name
  | .comment => "comment"
  | .docComment => "comment doc-comment"
  | .html => "html"
  | .name => "name"
  | .punct => "g"

def isWhitespace (kind : Kind) : Bool :=
  kind == .whitespace

/-- Kinds whose text may hold newlines, so that a window may cut them at a line end. -/
def isSplittable : Kind → Bool
  | .whitespace | .comment | .docComment | .html | .literal => true
  | .tag .open_ | .tag .close | .grammar .startHeredoc => true
  | _ => false

/-- Access to a member of an object. -/
def isMemberAccess : Kind → Bool
  | .grammar .arrow | .grammar .nullsafeArrow => true
  | _ => false

/-- Kinds that decide how the next word is read: all but whitespace and comments. -/
def isSignificant : Kind → Bool
  | .whitespace | .comment | .docComment => false
  | _ => true

end Kind

end Listing
