import Listing.Excerpt
import Listing.Span
import Listing.Text.Entity
import Listing.Text.Lines
import Listing.Window

/-!
# Filling a page

A `Page` collects spans on numbered lines. Each newline in a span's text begins a new line; text on
either side of it is wrapped by itself, so no element runs over lines. The first span opens the
first line even if it has no text, so a blank line is shown too.

Lines are counted one by one, and what a machine does past the greatest number is up to the machine
(`Overflow`). `Page.push` counts without end, `Page.push?` as a machine does; they differ only for a
page with a line past `Window.maxLine`.
-/

namespace Listing

namespace Span

/-- An attribute, with a blank before it. -/
def attributeMarkup (attribute_ : String × String) : String :=
  " " ++ attribute_.1 ++ "=\"" ++ escape attribute_.2 ++ "\""

/-- A part of the span's text, with the span's classes and attributes around it. -/
def wrap (span : Span) (part : String) : String :=
  match span.label with
  | none => escape part
  | some label =>
    "<span class=\"" ++ escape label ++ "\"" ++ String.join (span.attributes.map attributeMarkup)
      ++ ">" ++ escape part ++ "</span>"

end Span

/-- Lines being filled, the current one first. -/
structure Page where
  firstLine : Nat
  focus : Option Nat
  filled : List Line

namespace Page

/-- An empty page that numbers its lines from the first line of the window. -/
def start (window : Window) : Page :=
  { firstLine := window.firstLine, focus := window.focus, filled := [] }

/-- The lines in order. -/
def lines (page : Page) : List Line :=
  page.filled.reverse

/-- The number of the next line. -/
def nextNumber (page : Page) : Nat :=
  match page.filled with
  | [] => page.firstLine
  | line :: _ => line.number + 1

/-- The page with a new line of this number. -/
def addLine (page : Page) (number : Nat) : Page :=
  let line : Line := { number, highlighted := page.focus == some number, content := "" }
  { page with filled := line :: page.filled }

/-- The page with a new line. -/
def openLine (page : Page) : Page :=
  page.addLine page.nextNumber

/-- The page with markup at the end of its current line. -/
def write (page : Page) (markup : String) : Page :=
  match page.filled with
  | [] => page
  | line :: above =>
    { page with filled := { line with content := line.content ++ markup } :: above }

/-- The page with a part of a span's text on its current line. -/
def writePart (page : Page) (span : Span) (part : List Char) : Page :=
  if part.isEmpty then page else page.write (span.wrap (String.ofList part))

/-- The page with the lines of a span's text; each but the first begins a new line. -/
def writeLines (page : Page) (span : Span) : List (List Char) → Page
  | [] => page
  | first :: more =>
    more.foldl (fun page part => page.openLine.writePart span part) (page.writePart span first)

/-- The page with one more span. -/
def push (page : Page) (span : Span) : Page :=
  let page := if page.filled.isEmpty then page.openLine else page
  page.writeLines span (Text.lines span.text.toList)

/-- The finished excerpt; `truncated` says that source was left out below it. -/
def finish (page : Page) (truncated : Bool) : Excerpt :=
  { leading := .ofMore (decide (1 < page.firstLine))
    lines := page.lines
    trailing := .ofMore truncated }

end Page

/-! ## Counting in words -/

/-- What becomes of a count past `Window.maxLine`: it stops the machine, or goes on from zero. -/
inductive Overflow
  | stop
  | wrap
  deriving DecidableEq, Repr

/-- What a machine has for a number, if it goes on. -/
def Overflow.word? (overflow : Overflow) (number : Nat) : Option Nat :=
  match overflow with
  | .stop => if number ≤ Window.maxLine then some number else none
  | .wrap => some (number % (Window.maxLine + 1))

namespace Page

/-- The number of the next line, counted by a machine. -/
def nextNumber? (overflow : Overflow) (page : Page) : Option Nat :=
  match page.filled with
  | [] => some page.firstLine
  | line :: _ => overflow.word? (line.number + 1)

/-- The page with a new line, if the machine has a number for it. -/
def openLine? (overflow : Overflow) (page : Page) : Option Page :=
  (page.nextNumber? overflow).map page.addLine

/-- The page with the lines of a span's text, if the machine has numbers for them. -/
def writeLines? (overflow : Overflow) (page : Page) (span : Span) :
    List (List Char) → Option Page
  | [] => some page
  | first :: more =>
    more.foldlM (fun page part => (page.openLine? overflow).map (·.writePart span part))
      (page.writePart span first)

/-- The page with one more span, if the machine has numbers for its lines. -/
def push? (overflow : Overflow) (page : Page) (span : Span) : Option Page := do
  let page ← if page.filled.isEmpty then page.openLine? overflow else some page
  page.writeLines? overflow span (Text.lines span.text.toList)

end Page

end Listing
