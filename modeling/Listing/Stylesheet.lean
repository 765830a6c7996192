/-!
# The stylesheet

How the classes of the markup are meant to look. Layout comes first, a declaration to a line; then
the colours of the classes, a rule to a line.
-/

namespace Listing

/-- Declarations for some parts of a listing. -/
structure StyleRule where
  /-- What to add to the selector of a listing, for each part. -/
  parts : List String
  declarations : List (String × String)

namespace StyleRule

/-- The selectors, one to a line. -/
def selectors (rule : StyleRule) : String :=
  String.intercalate ",\n" (rule.parts.map ("samp.source" ++ ·))

/-- The rule with a declaration to a line. -/
def block (rule : StyleRule) : String :=
  rule.selectors ++ " \x7b\n"
    ++ String.join (rule.declarations.map fun d => "    " ++ d.1 ++ ": " ++ d.2 ++ ";\n")
    ++ "\x7d\n"

/-- The rule on one line. -/
def inLine (rule : StyleRule) : String :=
  rule.selectors ++ " \x7b "
    ++ String.join (rule.declarations.map fun d => d.1 ++ ": " ++ d.2 ++ "; ") ++ "\x7d\n"

end StyleRule

namespace Stylesheet

/-- The layout of a listing. -/
def layout : List StyleRule :=
  [⟨[""],
     [("display", "block"),
      ("font-family", "ui-monospace, SFMono-Regular, Menlo, Consolas, monospace"),
      ("font-size", "0.85rem"), ("line-height", "1.5"), ("white-space", "pre"),
      ("overflow-x", "auto"), ("color", "#383a42"), ("background", "#fafafa")]⟩,
   ⟨[" .line"], [("display", "block"), ("padding-right", "1em")]⟩,
   ⟨[" .line.highlighted"], [("background", "#fff3c4")]⟩,
   ⟨[" .line.spacer"], [("height", "0.5em")]⟩,
   ⟨[" .number"],
     [("display", "inline-block"), ("min-width", "3.5em"), ("margin-right", "1em"),
      ("padding-right", "0.5em"), ("text-align", "right"), ("color", "#a0a1a7"),
      ("border-right", "1px solid #e5e5e6"), ("user-select", "none")]⟩,
   ⟨[" .number.x"], [("color", "#c2c2c2")]⟩]

/-- The look of the classes. -/
def classes : List StyleRule :=
  [⟨[" .keyword"], [("color", "#a626a4")]⟩,
   ⟨[" .keyword.flow"], [("color", "#c678dd"), ("font-weight", "600")]⟩,
   ⟨[" .type", " .cast"], [("color", "#0184bc")]⟩,
   ⟨[" .tag"], [("color", "#e45649")]⟩,
   ⟨[" .op", " .g"], [("color", "#56b6c2")]⟩,
   ⟨[" .char"], [("color", "#e45649"), ("text-decoration", "underline wavy")]⟩,
   ⟨[" .constant", " .int", " .float"], [("color", "#986801")]⟩,
   ⟨[" .func"], [("color", "#4078f2")]⟩,
   ⟨[" .var"], [("color", "#e45649")]⟩,
   ⟨[" .var.this"], [("font-style", "italic")]⟩,
   ⟨[" .string"], [("color", "#50a14f")]⟩,
   ⟨[" .string[data-quote]::before", " .string[data-quote]::after"],
     [("content", "attr(data-quote)"), ("opacity", "0.6")]⟩,
   ⟨[" .string[data-prefix]::before"], [("content", "attr(data-prefix) attr(data-quote)")]⟩,
   ⟨[" .comment"], [("color", "#a0a1a7"), ("font-style", "italic")]⟩,
   ⟨[" .comment.doc-comment"], [("color", "#8a8b91")]⟩,
   ⟨[" .html"], [("color", "#696c77")]⟩,
   ⟨[" .name.class"], [("color", "#c18401")]⟩,
   ⟨[" .name.class.return"], [("text-decoration", "underline dotted")]⟩,
   ⟨[" .name.namespace"], [("color", "#986801")]⟩,
   ⟨[" .name.function"], [("color", "#4078f2")]⟩,
   ⟨[" .name.member"], [("color", "#e45649")]⟩,
   ⟨[" .name.constant", " .name.null", " .name.bool"], [("color", "#986801")]⟩]

/-- The stylesheet as a text. -/
def text : String :=
  String.join (layout.map fun rule => rule.block ++ "\n")
    ++ String.join (classes.map StyleRule.inLine)

/-- The stylesheet as an element of a page. -/
def element : String :=
  "<style>\n" ++ text ++ "\n</style>"

end Stylesheet

end Listing
