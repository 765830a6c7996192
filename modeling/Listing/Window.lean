/-!
# Windows

A window is a range of lines with an optional line to highlight. Either end may be open. Line
numbers are words of 64 bits, and the ends of a window around a line stop at `Window.maxLine`.
-/

namespace Listing

/-- A range of lines, both ends included, and a line to highlight. -/
structure Window where
  first : Option Nat := none
  last : Option Nat := none
  focus : Option Nat := none
  deriving DecidableEq, Repr

namespace Window

/-- The greatest line number. -/
def maxLine : Nat := 0xffffffffffffffff

/-- The whole source. -/
def full : Window := {}

/-- The lines from `first` to `last`. -/
def lines (first last : Nat) : Window :=
  { first := some first, last := some last }

/-- The lines from `first` on. -/
def fromLine (first : Nat) : Window :=
  { first := some first }

/-- The lines within `reach` of `center`, which is highlighted. The center is at least one; the
reach at least one and at most `maxReach`. -/
def around (center reach maxReach : Nat) : Window :=
  let center := max center 1
  let reach := min (max reach 1) (max maxReach 1)
  { first := some (max (center - reach) 1)
    last := some (min (center + reach) maxLine)
    focus := some center }

def withFocus (window : Window) (line : Nat) : Window :=
  { window with focus := some line }

/-- The window with its first line at least one; a last line without a first one starts at one. -/
def normalized (window : Window) : Window :=
  match window.first, window.last with
  | some first, _ => { window with first := some (max first 1) }
  | none, some _ => { window with first := some 1 }
  | none, none => window

/-- Lines are left out, and tokens cut at line ends. -/
def isActive (window : Window) : Bool :=
  window.first.isSome

/-- The last line precedes the first. -/
def isInverted (window : Window) : Bool :=
  match window.first, window.last with
  | some first, some last => decide (last < first)
  | _, _ => false

/-- The number of the first line shown. -/
def firstLine (window : Window) : Nat :=
  window.first.getD 1

/-- The line is below the window. -/
def isPast (window : Window) (line : Nat) : Bool :=
  window.last.any fun last => decide (last < line)

/-- The line is the last of the window, or below it. -/
def isAtEnd (window : Window) (line : Nat) : Bool :=
  window.last.any fun last => decide (last ≤ line)

/-- The line is above the window. -/
def isAhead (window : Window) (line : Nat) : Bool :=
  window.first.any fun first => decide (line < first)

end Window

end Listing
