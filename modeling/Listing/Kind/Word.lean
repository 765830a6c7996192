/-!
# Reserved words

Families of words with a fixed meaning: words that declare things and structure a program, words
that direct its flow, constructs that look like calls, and constants that depend on their place.
Each word has the name under which it is listed; `all` keeps the order of listing. A word that Lean
reserves too carries an underscore.
-/

namespace Listing

/-- Words that declare things and structure a program. -/
inductive Keyword where
  | abstract | array | as | class_ | clone | const | declare | default | echo | endDeclare
  | enum | extends_ | final | fn | function | global | implements | include_ | includeOnce
  | instanceOf | insteadOf | interface | namespace_ | new | print | private_ | protected_
  | public_ | readonly | require | requireOnce | static | trait | use | var
  deriving DecidableEq, Repr

namespace Keyword

def all : List Keyword :=
  [.abstract, .array, .as, .class_, .clone, .const, .declare, .default, .echo, .endDeclare,
   .enum, .extends_, .final, .fn, .function, .global, .implements, .include_, .includeOnce,
   .instanceOf, .insteadOf, .interface, .namespace_, .new, .print, .private_, .protected_,
   .public_, .readonly, .require, .requireOnce, .static, .trait, .use, .var]

def name : Keyword → String
  | .abstract => "abstract"
  | .array => "array"
  | .as => "as"
  | .class_ => "class"
  | .clone => "clone"
  | .const => "const"
  | .declare => "declare"
  | .default => "default"
  | .echo => "echo"
  | .endDeclare => "enddeclare"
  | .enum => "enum"
  | .extends_ => "extends"
  | .final => "final"
  | .fn => "fn"
  | .function => "function"
  | .global => "global"
  | .implements => "implements"
  | .include_ => "include"
  | .includeOnce => "include-once"
  | .instanceOf => "instanceof"
  | .insteadOf => "insteadof"
  | .interface => "interface"
  | .namespace_ => "namespace"
  | .new => "new"
  | .print => "print"
  | .private_ => "private"
  | .protected_ => "protected"
  | .public_ => "public"
  | .readonly => "readonly"
  | .require => "require"
  | .requireOnce => "require-once"
  | .static => "static"
  | .trait => "trait"
  | .use => "use"
  | .var => "var"

/-- The name with a hyphen between the words it is made of. -/
def key : Keyword → String
  | .endDeclare => "end-declare"
  | .instanceOf => "instance-of"
  | .insteadOf => "instead-of"
  | word => word.name

end Keyword

/-- Words that direct the flow of a program. -/
inductive Flow where
  | break_ | case | catch_ | continue_ | do_ | else_ | elseIf | endFor | endForeach | endIf
  | endSwitch | endWhile | exit | finally_ | for_ | foreach | goto | if_ | match_ | return_
  | switch | throw | try_ | while_ | yield | yieldFrom
  deriving DecidableEq, Repr

namespace Flow

def all : List Flow :=
  [.break_, .case, .catch_, .continue_, .do_, .else_, .elseIf, .endFor, .endForeach, .endIf,
   .endSwitch, .endWhile, .exit, .finally_, .for_, .foreach, .goto, .if_, .match_, .return_,
   .switch, .throw, .try_, .while_, .yield, .yieldFrom]

def name : Flow → String
  | .break_ => "break"
  | .case => "case"
  | .catch_ => "catch"
  | .continue_ => "continue"
  | .do_ => "do"
  | .else_ => "else"
  | .elseIf => "elseif"
  | .endFor => "endfor"
  | .endForeach => "endforeach"
  | .endIf => "endif"
  | .endSwitch => "endswitch"
  | .endWhile => "endwhile"
  | .exit => "exit"
  | .finally_ => "finally"
  | .for_ => "for"
  | .foreach => "foreach"
  | .goto => "goto"
  | .if_ => "if"
  | .match_ => "match"
  | .return_ => "return"
  | .switch => "switch"
  | .throw => "throw"
  | .try_ => "try"
  | .while_ => "while"
  | .yield => "yield"
  | .yieldFrom => "yield-from"

/-- The name with a hyphen between the words it is made of. -/
def key : Flow → String
  | .elseIf => "else-if"
  | .endFor => "end-for"
  | .endForeach => "end-foreach"
  | .endIf => "end-if"
  | .endSwitch => "end-switch"
  | .endWhile => "end-while"
  | word => word.name

end Flow

/-- Constructs of the language that read like calls. -/
inductive Construct where
  | empty | eval | haltCompiler | isset | list | unset
  deriving DecidableEq, Repr

namespace Construct

def all : List Construct :=
  [.empty, .eval, .haltCompiler, .isset, .list, .unset]

def name : Construct → String
  | .empty => "empty"
  | .eval => "eval"
  | .haltCompiler => "halt-compiler"
  | .isset => "isset"
  | .list => "list"
  | .unset => "unset"

end Construct

/-- Constants whose value depends on where they stand. -/
inductive Magic where
  | className | dir | file | functionName | line | methodName | namespaceName | traitName
  deriving DecidableEq, Repr

namespace Magic

def all : List Magic :=
  [.className, .dir, .file, .functionName, .line, .methodName, .namespaceName, .traitName]

def name : Magic → String
  | .className => "class-c"
  | .dir => "dir"
  | .file => "file"
  | .functionName => "func-c"
  | .line => "line"
  | .methodName => "method-c"
  | .namespaceName => "ns-c"
  | .traitName => "trait-c"

end Magic

end Listing
