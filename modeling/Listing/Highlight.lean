import Listing.Excerpt.Page
import Listing.Lexer
import Listing.Text.LineEnding
import Listing.Text.Utf8
import Listing.Walk

/-!
# Highlighting

From a source and a window to an excerpt: read the source into tokens, walk them through the window,
label each piece from what can be seen around it, and fill a page.
-/

namespace Listing

/-- The reach of an extract when none is given. -/
def defaultReach : Nat := 8

/-- The greatest reach of an extract. -/
def maxReach : Nat := 30

/-- The span of a piece of a walk. -/
def Walk.View.span (view : Walk.View) : Span :=
  .ofToken view.piece view.history view.ahead

/-- The excerpt of a token list that a window shows. -/
def renderTokens (tokens : List Token) (window : Window) : Excerpt :=
  let walk := Walk.start tokens window
  let shown := walk.views
  let page := (shown.1.map Walk.View.span).foldl Page.push (.start walk.window)
  page.finish shown.2.truncated

/-- The tokens of a source, whatever its newlines. -/
def tokensOf (source : String) : Except LexError (List Token) :=
  tokenize (normalizeNewlines source)

/-- The excerpt of a source that a window shows. -/
def render (source : String) (window : Window) : Except LexError Excerpt :=
  (tokensOf source).map fun tokens => renderTokens tokens window.normalized

/-- The markup of a source that a window shows. -/
def highlight (source : String) (window : Window) : Except LexError String :=
  (render source window).map Excerpt.markup

/-- The markup of the lines around a line, which is highlighted. -/
def extract (source : String) (line reach : Nat) : Except LexError String :=
  highlight source (.around line reach maxReach)

/-- The markup of a file's contents; a file that cannot be read has none. -/
def highlightFile (contents : Option ByteArray) (window : Window) : Except LexError String :=
  match contents with
  | some bytes => highlight (Text.Utf8.decode bytes) window
  | none => .ok ""

/-- The markup of the lines around a line of a file. -/
def extractFile (contents : Option ByteArray) (line reach : Nat) : Except LexError String :=
  highlightFile contents (.around line reach maxReach)

end Listing
