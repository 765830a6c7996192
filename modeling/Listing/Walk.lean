import Listing.History
import Listing.Window

/-!
# Walking a token list through a window

A `Walk` goes through a token list once, front to back. In a window that leaves lines out, a token
that may hold newlines is cut after its first newline, and what is left goes back to the front of
the list, one line further down; on the last line of the window the newline goes with what is left,
so that nothing shown ends that line. Pieces above the window are passed over but remembered; the
first token below it ends the walk.

The walk ends on every list, whatever the lines of its tokens: a cut leaves fewer newlines, or a
token that has moved below the window (`Walk.weight`).
-/

namespace Listing

/-- A token cut after its first newline (or before it, if `spare` is set), and what is left. -/
def Token.cut (token : Token) (spare : Bool) : Token × List Token :=
  let line := token.text.toList.takeWhile (· != '\n')
  match token.text.toList.dropWhile (· != '\n') with
  | [] => (token, [])
  | newline :: below =>
    if spare then
      ({ token with text := String.ofList line },
        [token.remainder (String.ofList (newline :: below))])
    else
      ({ token with text := String.ofList (line ++ [newline]) },
        if below.isEmpty then [] else [token.remainder (String.ofList below)])

/-- A walk over a token list, between two pieces. -/
structure Walk where
  window : Window
  pending : List Token
  history : History
  /-- The walk ended with source left below the window. -/
  truncated : Bool
  finished : Bool

namespace Walk

/-- The walk before the first token. An inverted window shows nothing. -/
def start (tokens : List Token) (window : Window) : Walk :=
  { window := window.normalized
    pending := tokens
    history := .empty
    truncated := false
    finished := window.normalized.isInverted }

/-- A token as the window shows it, and what goes back to the list. -/
def cut (window : Window) (token : Token) : Token × List Token :=
  if window.isActive && token.kind.isSplittable then token.cut (window.isAtEnd token.line)
  else (token, [])

/-- What a pending token can still cost: itself, its newlines, and the step below the window. -/
def cost (window : Window) (token : Token) : Nat :=
  1 + newlines token.text.toList
    + (if window.last.any fun last => decide (token.line ≤ last) then 1 else 0)

/-- What all pending tokens can still cost. -/
def weight (window : Window) : List Token → Nat
  | [] => 0
  | token :: tokens => cost window token + weight window tokens

@[simp]
theorem weight_nil (window : Window) : weight window [] = 0 := rfl

@[simp]
theorem weight_cons (window : Window) (token : Token) (tokens : List Token) :
    weight window (token :: tokens) = cost window token + weight window tokens := rfl

@[simp]
theorem weight_append (window : Window) (front back : List Token) :
    weight window (front ++ back) = weight window front + weight window back := by
  induction front with
  | nil => simp
  | cons token front ih => simp [ih, Nat.add_assoc]

theorem newlines_dropWhile_le (token : Token) {newline : Char} {below : List Char}
    (h : token.text.toList.dropWhile (· != '\n') = newline :: below) :
    newlines below + 1 ≤ newlines token.text.toList := by
  have hn : newline = '\n' := by
    have := List.head?_dropWhile_not (· != '\n') token.text.toList
    rw [h] at this
    simpa using this
  have happ : token.text.toList = token.text.toList.takeWhile (· != '\n') ++ newline :: below := by
    rw [← h, List.takeWhile_append_dropWhile]
  rw [happ, hn]
  simp only [newlines, List.count_append, List.count_cons_self]
  omega

/-- What a cut puts back costs less than the token that was cut. -/
theorem weight_cut_lt {window : Window} {token : Token} (h : window.isPast token.line = false) :
    weight window (cut window token).2 < cost window token := by
  unfold cut
  split
  · unfold Token.cut
    dsimp only
    split
    · simp only [weight_nil, cost]
      omega
    · next newline below e =>
      have hlines := newlines_dropWhile_le token e
      split
      · next hend =>
        -- the token is on the last line, so what is left is below the window
        obtain ⟨last, hlast, hle⟩ : ∃ last, window.last = some last ∧ last ≤ token.line := by
          simpa [Window.isAtEnd, Option.any_eq_true] using hend
        have hge : token.line ≤ last := by
          simpa [Window.isPast, hlast] using h
        have hnl : newlines (newline :: below) ≤ newlines below + 1 := by
          simp only [newlines, List.count_cons]
          split <;> omega
        simp only [weight_cons, weight_nil, cost, Token.remainder, String.toList_ofList, hlast,
          Option.any_some, decide_eq_true_eq, hge, ↓reduceIte]
        split <;> omega
      · split
        · simp only [weight_nil, cost]
          omega
        · simp only [weight_cons, weight_nil, cost, Token.remainder, String.toList_ofList]
          cases hlast : window.last with
          | none => simp; omega
          | some last =>
            simp only [Option.any_some, decide_eq_true_eq]
            split <;> split <;> omega
  · simp only [weight_nil, cost]
    omega

/-- The walk past a token, with what is pending after it. -/
def past (walk : Walk) (token : Token) (pending : List Token) : Walk :=
  { walk with pending, history := walk.history.push token }

/-- The next piece in the window, if any, and the walk after it. -/
def next? (walk : Walk) : Option Token × Walk :=
  if walk.finished then (none, walk)
  else
    match _h : walk.pending with
    | [] => (none, { walk with finished := true })
    | token :: rest =>
      if _hpast : walk.window.isPast token.line then
        -- one newline that ends the source is not more source
        (none,
          { walk.past token rest with
            truncated := !(token.text == "\n" && rest.isEmpty)
            finished := true })
      else
        let piece := cut walk.window token
        if walk.window.isAhead piece.1.line then next? (walk.past token (piece.2 ++ rest))
        else (some piece.1, walk.past token (piece.2 ++ rest))
termination_by weight walk.window walk.pending
decreasing_by
  have := weight_cut_lt (Bool.eq_false_iff.2 _hpast)
  simp only [past, _h, weight_append, weight_cons]
  omega

@[simp]
theorem window_past (walk : Walk) (token : Token) (pending : List Token) :
    (walk.past token pending).window = walk.window := rfl

@[simp]
theorem pending_past (walk : Walk) (token : Token) (pending : List Token) :
    (walk.past token pending).pending = pending := rfl

@[simp]
theorem window_next? (walk : Walk) : walk.next?.2.window = walk.window := by
  fun_induction next? walk <;> simp_all

/-- A piece was paid for. -/
theorem weight_next?_lt {walk : Walk} {piece : Token} (h : walk.next?.1 = some piece) :
    weight walk.window walk.next?.2.pending < weight walk.window walk.pending := by
  fun_induction next? walk with
  | case1 => simp at h
  | case2 => simp at h
  | case3 => simp at h
  | case4 walk hf token rest hp hpast piece' hahead ih =>
    have hcut : weight walk.window piece'.2 < cost walk.window token :=
      weight_cut_lt (Bool.eq_false_iff.2 hpast)
    have := ih h
    simp only [window_past, pending_past, weight_append] at this
    simp only [hp, weight_cons]
    omega
  | case5 walk hf token rest hp hpast piece' hahead =>
    have hcut : weight walk.window piece'.2 < cost walk.window token :=
      weight_cut_lt (Bool.eq_false_iff.2 hpast)
    simp only [pending_past, hp, weight_append, weight_cons]
    omega

/-- A piece, and what can be seen from it: the tokens up to it, newest first, and those after it. -/
structure View where
  piece : Token
  history : History
  ahead : List Token

/-- All pieces in the window, and the walk at its end. -/
def views (walk : Walk) : List View × Walk :=
  match _h : walk.next? with
  | (none, after) => ([], after)
  | (some piece, after) =>
    let found := views after
    (⟨piece, after.history, after.pending⟩ :: found.1, found.2)
termination_by weight walk.window walk.pending
decreasing_by
  have hlt := @weight_next?_lt walk piece (by rw [_h])
  have hw := window_next? walk
  rw [_h] at hlt hw
  rw [hw]
  exact hlt

end Walk

end Listing
