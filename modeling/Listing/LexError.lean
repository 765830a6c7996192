/-!
# What can be left open

Reading fails in one way only: something was opened and the source ended, or left the program,
before it was closed. The error says what was opened and where.
-/

namespace Listing

/-- A construct that needs a closing mark. -/
inductive Unterminated where
  | string
  | comment
  | heredoc (label : String)
  /-- Code inside a string. -/
  | interpolation
  deriving DecidableEq, Repr

/-- How a message calls the construct. -/
def Unterminated.phrase : Unterminated → String
  | .string => "string"
  | .comment => "comment"
  | .heredoc label => "heredoc '" ++ label ++ "'"
  | .interpolation => "interpolation"

/-- A construct that was never closed, and the line of its opening mark. -/
structure LexError where
  construct : Unterminated
  line : Nat
  deriving DecidableEq, Repr

/-- The error in words. -/
def LexError.message (error : LexError) : String :=
  "unterminated " ++ error.construct.phrase ++ " starting on line " ++ toString error.line

end Listing
