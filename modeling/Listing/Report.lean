import Listing.Excerpt
import Listing.Text.Json
import Listing.Token

/-!
# Reports

Tokens and excerpts as JSON values, members in a fixed order.
-/

namespace Listing

open Text (Json)

def Token.json (token : Token) : Json :=
  .object
    [("kind", .string token.kind.key), ("text", .string token.text), ("line", .number token.line)]

def Line.json (line : Line) : Json :=
  .object
    [("number", .number line.number), ("highlighted", .bool line.highlighted),
     ("content", .string line.content)]

def Excerpt.json (excerpt : Excerpt) : Json :=
  .object
    [("leading", .string excerpt.leading.name), ("lines", .array (excerpt.lines.map Line.json)),
     ("trailing", .string excerpt.trailing.name)]

end Listing
