/-!
# Symbols

The kinds of token that are not words: operators, casts, tags, variables, parts of strings, and the
tokens that hold the grammar together.
-/

namespace Listing

/-- Conversions written as a type in parentheses. -/
inductive Cast where
  | array | bool | double | int | object | string | unset
  deriving DecidableEq, Repr

namespace Cast

def all : List Cast :=
  [.array, .bool, .double, .int, .object, .string, .unset]

def name : Cast → String
  | .array => "array-cast"
  | .bool => "bool-cast"
  | .double => "double-cast"
  | .int => "int-cast"
  | .object => "object-cast"
  | .string => "string-cast"
  | .unset => "unset-cast"

end Cast

/-- Tags between program text and the text around it. -/
inductive Tag where
  | close | open_ | openEcho
  deriving DecidableEq, Repr

namespace Tag

def all : List Tag :=
  [.close, .open_, .openEcho]

def name : Tag → String
  | .close => "close-tag"
  | .open_ => "open-tag"
  | .openEcho => "open-tag-with-echo"

end Tag

/-- Operators of more than one character, and the operators spelled as words. -/
inductive Op where
  | andEqual | booleanAnd | booleanOr | coalesce | coalesceEqual | concatEqual | dec | divEqual
  | ellipsis | inc | isEqual | isGreaterOrEqual | isIdentical | isNotEqual | isNotIdentical
  | isSmallerOrEqual | logicalAnd | logicalOr | logicalXor | minusEqual | modEqual | mulEqual
  | orEqual | doubleColon | plusEqual | pow | powEqual | shiftLeft | shiftLeftEqual | spaceship
  | shiftRight | shiftRightEqual | xorEqual
  deriving DecidableEq, Repr

namespace Op

def all : List Op :=
  [.andEqual, .booleanAnd, .booleanOr, .coalesce, .coalesceEqual, .concatEqual, .dec,
   .divEqual, .ellipsis, .inc, .isEqual, .isGreaterOrEqual, .isIdentical, .isNotEqual,
   .isNotIdentical, .isSmallerOrEqual, .logicalAnd, .logicalOr, .logicalXor, .minusEqual,
   .modEqual, .mulEqual, .orEqual, .doubleColon, .plusEqual, .pow, .powEqual, .shiftLeft,
   .shiftLeftEqual, .spaceship, .shiftRight, .shiftRightEqual, .xorEqual]

def name : Op → String
  | .andEqual => "and-equal"
  | .booleanAnd => "boolean-and"
  | .booleanOr => "boolean-or"
  | .coalesce => "coalesce"
  | .coalesceEqual => "coalesce-equal"
  | .concatEqual => "concat-equal"
  | .dec => "dec"
  | .divEqual => "div-equal"
  | .ellipsis => "ellipsis"
  | .inc => "inc"
  | .isEqual => "is-equal"
  | .isGreaterOrEqual => "is-greater-or-equal"
  | .isIdentical => "is-identical"
  | .isNotEqual => "is-not-equal"
  | .isNotIdentical => "is-not-identical"
  | .isSmallerOrEqual => "is-smaller-or-equal"
  | .logicalAnd => "logical-and"
  | .logicalOr => "logical-or"
  | .logicalXor => "logical-xor"
  | .minusEqual => "minus-equal"
  | .modEqual => "mod-equal"
  | .mulEqual => "mul-equal"
  | .orEqual => "or-equal"
  | .doubleColon => "paamayim-nekudotayim"
  | .plusEqual => "plus-equal"
  | .pow => "pow"
  | .powEqual => "pow-equal"
  | .shiftLeft => "sl"
  | .shiftLeftEqual => "sl-equal"
  | .spaceship => "spaceship"
  | .shiftRight => "sr"
  | .shiftRightEqual => "sr-equal"
  | .xorEqual => "xor-equal"

end Op

/-- Variables and what stands for one inside a string: a numeric offset (`offset`), a name after an
opening dollar brace (`braced`), a variable (`plain`). -/
inductive Var where
  | offset | braced | plain
  deriving DecidableEq, Repr

namespace Var

def all : List Var :=
  [.offset, .braced, .plain]

def name : Var → String
  | .offset => "num-string"
  | .braced => "string-varname"
  | .plain => "variable"

end Var

/-- String text: a string with its quotes (`whole`), or literal text inside one (`piece`). -/
inductive Quoted where
  | whole | piece
  deriving DecidableEq, Repr

namespace Quoted

def all : List Quoted :=
  [.whole, .piece]

def name : Quoted → String
  | .whole => "constant-encapsed-string"
  | .piece => "encapsed-and-whitespace"

end Quoted

/-- Tokens that hold the grammar together. -/
inductive Grammar where
  | attribute | curlyOpen | dollarCurlyOpen | doubleArrow | endHeredoc | separator | arrow
  | nullsafeArrow | startHeredoc | whitespace
  deriving DecidableEq, Repr

namespace Grammar

def all : List Grammar :=
  [.attribute, .curlyOpen, .dollarCurlyOpen, .doubleArrow, .endHeredoc, .separator, .arrow,
   .nullsafeArrow, .startHeredoc, .whitespace]

def name : Grammar → String
  | .attribute => "attribute"
  | .curlyOpen => "curly-open"
  | .dollarCurlyOpen => "dollar-open-curly-braces"
  | .doubleArrow => "double-arrow"
  | .endHeredoc => "end-heredoc"
  | .separator => "ns-separator"
  | .arrow => "object-operator"
  | .nullsafeArrow => "nullsafe-object-operator"
  | .startHeredoc => "start-heredoc"
  | .whitespace => "whitespace"

end Grammar

end Listing
