/-!
# Excerpts

An excerpt is a run of numbered lines of markup with a mark above and below it that tells whether
there is more source. `Excerpt.markup` writes it as one block, a line of text to each of its lines.
-/

namespace Listing

/-- A numbered line of markup. -/
structure Line where
  number : Nat
  highlighted : Bool
  content : String
  deriving DecidableEq, Repr

/-- The mark above or below an excerpt. -/
inductive Edge where
  /-- There is more source. -/
  | ellipsis
  /-- The source begins or ends here. -/
  | spacer
  deriving DecidableEq, Repr

/-- Numbered lines between two marks. -/
structure Excerpt where
  leading : Edge
  lines : List Line
  trailing : Edge
  deriving DecidableEq, Repr

/-- An ellipsis where there is more source. -/
def Edge.ofMore (more : Bool) : Edge :=
  if more then .ellipsis else .spacer

def Edge.name : Edge → String
  | .ellipsis => "ellipsis"
  | .spacer => "spacer"

def Edge.markup : Edge → String
  | .ellipsis => "<span class=\"line\"><span class=\"number x\">…</span></span>"
  | .spacer => "<span class=\"line spacer\"><span class=\"number x\"></span></span>"

def Line.markup (line : Line) : String :=
  "<span class=\"line" ++ (if line.highlighted then " highlighted" else "")
    ++ "\"><span class=\"number\">" ++ toString line.number ++ "</span>" ++ line.content
    ++ "</span>"

/-- The excerpt as one block of markup. -/
def Excerpt.markup (excerpt : Excerpt) : String :=
  "<samp class=\"source\">" ++ excerpt.leading.markup ++ "\n"
    ++ String.join (excerpt.lines.map fun line => line.markup ++ "\n")
    ++ excerpt.trailing.markup ++ "</samp>"

end Listing
