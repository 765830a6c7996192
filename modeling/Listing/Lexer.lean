import Listing.Lexer.Context

/-!
# Reading a source

A source is a PHP file: text with programs in it. The reader starts in the text around the program,
on line one, and steps through contexts until the source is used up (`Lexer.run`). A step always
takes something, so this ends; the lexemes of each step are placed on their lines as they come.
-/

namespace Listing

namespace Lexer

/-- The reader between two steps. -/
structure State where
  rest : List Char
  line : Nat
  /-- The last kind that was not whitespace or comment. -/
  previous : Option Kind
  context : Context

namespace State

/-- The reader before a source. -/
def start (cs : List Char) : State :=
  { rest := cs, line := 1, previous := none, context := .html }

/-- The last kind that was not whitespace or comment, after some lexemes. -/
def significant (previous : Option Kind) (lexemes : List Lexeme) : Option Kind :=
  lexemes.foldl (fun last lexeme => if lexeme.kind.isSignificant then some lexeme.kind else last)
    previous

/-- The reader after a step. -/
def advance (state : State) (step : Step) : State :=
  { rest := step.rest
    line := state.line + newlines (Lexeme.spell step.lexemes)
    previous := significant state.previous step.lexemes
    context := step.context }

def step (state : State) : Except LexError Step :=
  state.context.step state.line state.previous state.rest

theorem rest_lt_of_step {state : State} {next : Step} (hne : state.rest ≠ [])
    (h : state.step = .ok next) : (state.advance next).rest.length < state.rest.length :=
  (Context.step_covers hne h).rest_lt

end State

/-- The tokens from here to the end of the source. -/
def run (state : State) : Except LexError (List Token) :=
  if _hne : state.rest = [] then
    match state.context.finish with
    | .error error => .error error
    | .ok () => .ok []
  else
    match _h : state.step with
    | .error error => .error error
    | .ok next =>
      match run (state.advance next) with
      | .error error => .error error
      | .ok tokens => .ok (Token.place state.line next.lexemes ++ tokens)
termination_by state.rest.length
decreasing_by exact State.rest_lt_of_step _hne _h

end Lexer

/-- The tokens of a source, or the construct it leaves open. -/
def tokenize (source : String) : Except LexError (List Token) :=
  Lexer.run (.start source.toList)

end Listing
