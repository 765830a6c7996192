/-!
# JSON

Values and the one way they are written: a member or an item to a line, two blanks deeper for each
level, and nothing between the brackets of an empty value.
-/

namespace Listing.Text

inductive Json where
  | string (text : String)
  | number (value : Nat)
  | bool (value : Bool)
  | array (items : List Json)
  | object (members : List (String × Json))

namespace Json

/-- A hexadecimal digit. -/
def hexDigit (n : Nat) : Char :=
  (Nat.toDigits 16 (n % 16)).headD '0'

/-- A character inside a string. -/
def character (c : Char) : List Char :=
  if c = '\x22' then ['\\', c]
  else if c = '\\' then ['\\', c]
  else if c = '\x08' then ['\\', 'b']
  else if c = '\t' then ['\\', 't']
  else if c = '\n' then ['\\', 'n']
  else if c = '\x0c' then ['\\', 'f']
  else if c = '\r' then ['\\', 'r']
  else if c.toNat < 0x20 then
    ['\\', 'u', '0', '0', hexDigit (c.toNat / 16), hexDigit c.toNat]
  else [c]

/-- A text in quotes. -/
def quote (text : String) : String :=
  String.ofList ('\x22' :: text.toList.flatMap character ++ ['\x22'])

/-- A line break and the blanks of a level. -/
def break_ (level : Nat) : String :=
  "\n" ++ String.ofList (List.replicate (2 * level) ' ')

/-- Brackets around items, one to a line, or nothing between them. -/
def bracket (opening closing : String) (level : Nat) (items : List String) : String :=
  if items.isEmpty then opening ++ closing
  else
    opening ++ break_ (level + 1) ++ String.intercalate ("," ++ break_ (level + 1)) items
      ++ break_ level ++ closing

mutual

/-- The value as it is written at a level. -/
def writeAt (level : Nat) : Json → String
  | .string text => quote text
  | .number value => toString value
  | .bool value => if value then "true" else "false"
  | .array items => bracket "[" "]" level (writeItems (level + 1) items)
  | .object members => bracket "\x7b" "\x7d" level (writeMembers (level + 1) members)

/-- The items of an array. -/
def writeItems (level : Nat) : List Json → List String
  | [] => []
  | item :: items => writeAt level item :: writeItems level items

/-- The members of an object. -/
def writeMembers (level : Nat) : List (String × Json) → List String
  | [] => []
  | (key, value) :: members =>
    (quote key ++ ": " ++ writeAt level value) :: writeMembers level members

end

/-- The value as it is written. -/
def write (json : Json) : String :=
  json.writeAt 0

end Json

end Listing.Text
