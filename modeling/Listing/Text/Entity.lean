/-!
# Entities

Text in markup, and in quoted attribute values, must not hold the five characters that markup is
made of. Each is written as an entity.
-/

namespace Listing.Text

/-- The entity of a character of markup; other characters stand for themselves. -/
def entity (c : Char) : List Char :=
  if c = '&' then "&amp;".toList
  else if c = '<' then "&lt;".toList
  else if c = '>' then "&gt;".toList
  else if c = '\x22' then "&quot;".toList
  else if c = '\x27' then "&#039;".toList
  else [c]

/-- The text with entities for the characters of markup. -/
def encodeEntities (cs : List Char) : List Char :=
  cs.flatMap entity

end Listing.Text

namespace Listing

/-- The text with entities for the characters of markup. -/
def escape (text : String) : String :=
  String.ofList (Text.encodeEntities text.toList)

end Listing
