import Mathlib.Data.List.Nodup
import Listing.Proofs.Numbering

/-!
# The lines around a line

An extract is the excerpt of the window around a line. That window always holds the line it is
about, whatever becomes of its ends (`Window.holds_around`): the lower end stops at one, the upper at
the greatest line number.

If the source has the line, the window begins above the last line of the source, unless there is
only one line. So the one line that a window can miss, an empty last line it begins with, is not
missed by an extract, and all lines in reach are shown.
-/

namespace Listing

/-! ## The highlighted line -/

namespace Page

/-- The lines that are highlighted are those with the number in focus. -/
theorem map_number_highlighted (firstLine : Nat) (focus : Option Nat) (rows : List (List Char)) :
    ((numbered firstLine focus rows).filter Line.highlighted).map Line.number
      = ((numbered firstLine focus rows).map Line.number).filter fun n => focus == some n := by
  rw [List.filter_map]
  congr 1
  apply List.filter_congr
  intro line hline
  obtain ⟨i, hi, rfl⟩ := List.mem_mapIdx.1 hline
  rfl

end Page

/-- Of consecutive numbers one is in focus if it is among them, else none. -/
theorem filter_focus_range' (first count center : Nat) :
    (List.range' first count).filter (fun n => some center == some n)
      = if first ≤ center ∧ center < first + count then [center] else [] := by
  have hfilter : (List.range' first count).filter (fun n => some center == some n)
      = List.replicate ((List.range' first count).count center) center := by
    rw [← List.filter_beq]
    apply List.filter_congr
    intro n _
    simp [eq_comm]
  have hmem : center ∈ List.range' first count ↔ first ≤ center ∧ center < first + count :=
    List.mem_range'_1
  rw [hfilter]
  split
  · next h => rw [List.count_eq_one_of_mem List.nodup_range' (hmem.2 h), List.replicate_one]
  · next h => rw [List.count_eq_zero_of_not_mem (mt hmem.1 h), List.replicate_zero]

/-! ## The window around a line -/

namespace Window

/-- The reach that is taken where `reach` is asked for and `greatest` is the most there is. -/
def clampReach (reach greatest : Nat) : Nat :=
  min (max reach 1) (max greatest 1)

theorem one_le_clampReach (reach greatest : Nat) : 1 ≤ clampReach reach greatest := by
  simp only [clampReach]
  omega

/-- The window around a line, by its three line numbers. -/
theorem around_eq (line reach greatest : Nat) :
    around line reach greatest
      = { first := some (max 1 (max line 1 - clampReach reach greatest))
          last := some (min (max line 1 + clampReach reach greatest) maxLine)
          focus := some (max line 1) } := by
  simp [around, clampReach, Nat.max_comm 1]

/-- **A window holds the line it is around**, also where the sum passes the greatest line number. -/
theorem holds_around {line : Nat} (h : line ≤ maxLine) (reach greatest : Nat) :
    1 ≤ max 1 (max line 1 - clampReach reach greatest)
      ∧ max 1 (max line 1 - clampReach reach greatest) ≤ max line 1
      ∧ max line 1 ≤ min (max line 1 + clampReach reach greatest) maxLine := by
  have hmax : 1 ≤ maxLine := by decide
  omega

theorem normalized_around (line reach greatest : Nat) :
    (around line reach greatest).normalized = around line reach greatest := by
  rw [around_eq]
  simp only [normalized]
  congr 2
  omega

theorem firstLine_around (line reach greatest : Nat) :
    (around line reach greatest).firstLine
      = max 1 (max line 1 - clampReach reach greatest) := by
  rw [around_eq]
  rfl

theorem isInverted_around {line : Nat} (h : line ≤ maxLine) (reach greatest : Nat) :
    (around line reach greatest).isInverted = false := by
  obtain ⟨-, hfirst, hlast⟩ := holds_around h reach greatest
  rw [around_eq]
  simp only [isInverted, decide_eq_false_iff_not]
  omega

end Window

/-! ## The excerpt around a line -/

section Around

variable {source : String} {tokens : List Token} (h : tokenize source = .ok tokens)
include h

/-- A window shows nothing of a source that ends above it, or ends with a newline right where it
begins. -/
theorem pieces_eq_nil_iff_of_tokenize (hne : source ≠ "") {window : Window}
    (hinv : window.normalized.isInverted = false) :
    (Walk.start tokens window).pieces = []
      ↔ newlines source.toList + 1 < window.normalized.firstLine
        ∨ source.toList.getLast? = some '\n'
          ∧ window.normalized.firstLine = newlines source.toList + 1 := by
  have hformed := fun token (hmem : token ∈ tokens) => formed_of_mem_tokenize h hmem
  have htexts := fun token (hmem : token ∈ tokens) => text_ne_empty_of_mem_tokenize h hmem
  have hspell := spell_tokenize h
  have hsource : source.toList ≠ [] := by rwa [ne_eq, String.toList_eq_nil_iff]
  have hsome : tokens ≠ [] := by rwa [ne_eq, ← Token.spell_eq_nil_iff htexts, hspell]
  rw [Walk.pieces_start_eq_nil_iff (placed_tokenize h) (.of_formed hformed) hinv htexts hsome,
    hspell]
  exact newlines_dropLast_lt_iff hsource

/-- A window around a line of the source shows something. -/
theorem pieces_around_ne_nil (hne : source ≠ "") {line : Nat} (hline : line ≤ Window.maxLine)
    (reach greatest : Nat) (hcenter : max line 1 ≤ newlines source.toList + 1) :
    (Walk.start tokens (.around line reach greatest)).pieces ≠ [] := by
  intro hnil
  have hpos := Window.one_le_clampReach reach greatest
  rw [pieces_eq_nil_iff_of_tokenize h hne
      (by rw [Window.normalized_around, Window.isInverted_around hline]),
    Window.normalized_around, Window.firstLine_around] at hnil
  rcases hnil with hbelow | ⟨hend, hlast⟩
  · omega
  · -- a source that ends with a newline has two lines, and the window begins above the last
    have hmem : '\n' ∈ source.toList := List.mem_of_getLast? hend
    have hlines : 0 < newlines source.toList := List.count_pos_iff.2 hmem
    omega

/-- The lines around a line are numbered from the first to the last of the window, as far as the
source goes. -/
theorem map_number_around {line reach greatest : Nat}
    (hne : (Walk.start tokens (.around line reach greatest)).pieces ≠ []) :
    (renderTokens tokens (.around line reach greatest)).lines.map Line.number
      = List.range' (max 1 (max line 1 - Window.clampReach reach greatest))
          (min (newlines source.toList + 1)
              (min (max line 1 + Window.clampReach reach greatest) Window.maxLine) + 1
            - max 1 (max line 1 - Window.clampReach reach greatest)) := by
  have hformed := fun token (hmem : token ∈ tokens) => formed_of_mem_tokenize h hmem
  rw [map_number_renderTokens (placed_tokenize h) hformed hne, Window.normalized_around,
    Window.firstLine_around, spell_tokenize h, Window.around_eq, Option.elim_some,
    Nat.min_comm (newlines source.toList + 1)]

end Around

/-- The line in focus is highlighted if it is shown, and no other is. -/
theorem map_number_highlighted_around (tokens : List Token) (line reach greatest : Nat) :
    ((renderTokens tokens (.around line reach greatest)).lines.filter Line.highlighted).map
        Line.number
      = ((renderTokens tokens (.around line reach greatest)).lines.map Line.number).filter
          fun n => some (max line 1) == some n := by
  rw [lines_renderTokens, Window.normalized_around, Page.map_number_highlighted, Window.around_eq]

/-- **An extract shows the neighbourhood of a line**: every line of the source within the clamped
reach, with the line itself highlighted and no other. If the source has no such line, none is
highlighted. Line numbers stop at `Window.maxLine`, which only a source with more lines can tell.
The window around a line holds it whatever the greatest reach is. -/
theorem extract_shows_neighbourhood {source : String} (hlf : '\r' ∉ source.toList)
    (hne : source ≠ "") {tokens : List Token} (h : tokenize source = .ok tokens) {line : Nat}
    (hline : line ≤ Window.maxLine) (reach : Nat) :
    let count := newlines source.toList + 1
    let center := max line 1
    let buffer := min (max reach 1) 30
    let first := max 1 (center - buffer)
    let last := min (center + buffer) Window.maxLine
    (∀ greatest, ∃ start stop,
        Window.around line reach greatest = ⟨some start, some stop, some center⟩
        ∧ start = max 1 (center - min (max reach 1) (max greatest 1))
        ∧ stop = min (center + min (max reach 1) (max greatest 1)) Window.maxLine
        ∧ 1 ≤ start ∧ start ≤ center ∧ center ≤ stop)
      ∧ Window.around line reach maxReach = ⟨some first, some last, some center⟩
      ∧ 1 ≤ first ∧ first ≤ center ∧ center ≤ last
      ∧ (count ≤ Window.maxLine → min count last = min count (center + buffer))
      ∧ ∃ excerpt, render source (.around line reach maxReach) = .ok excerpt
        ∧ extract source line reach = .ok excerpt.markup
        ∧ excerpt.lines.length ≤ 2 * buffer + 1
        ∧ (center ≤ count →
            excerpt.lines.map Line.number = List.range' first (min count last + 1 - first)
            ∧ (excerpt.lines.filter Line.highlighted).map Line.number = [center])
        ∧ (count < center → ∀ shown ∈ excerpt.lines, shown.highlighted = false) := by
  intro count center buffer first last
  have hrender := render_of_tokenize hlf h (.around line reach maxReach)
  rw [Window.normalized_around] at hrender
  have hbuffer : Window.clampReach reach maxReach = buffer := rfl
  obtain ⟨hone, hfirst, hlast⟩ := Window.holds_around hline reach maxReach
  refine ⟨fun greatest => ⟨_, _, Window.around_eq line reach greatest, rfl, rfl,
      Window.holds_around hline reach greatest⟩, Window.around_eq line reach maxReach, hone, hfirst,
    hlast, by omega, _, hrender, ?_, ?_, ?_, ?_⟩
  · rw [extract, highlight, hrender]
    rfl
  · by_cases hnil : (Walk.start tokens (.around line reach maxReach)).pieces = []
    · simp [lines_renderTokens_eq_nil hnil]
    · have hlength := congrArg List.length (map_number_around h hnil)
      rw [List.length_map, List.length_range'] at hlength
      omega
  · intro hcenter
    have hnumbers := map_number_around h (pieces_around_ne_nil h hne hline reach maxReach hcenter)
    refine ⟨hnumbers, ?_⟩
    rw [map_number_highlighted_around, hnumbers, filter_focus_range', if_pos]
    omega
  · intro hcenter shown hshown
    by_cases hnil : (Walk.start tokens (.around line reach maxReach)).pieces = []
    · rw [lines_renderTokens_eq_nil hnil] at hshown
      cases hshown
    · -- the numbers shown are those of lines of the source, so the line in focus is not among them
      have hhigh := map_number_highlighted_around tokens line reach maxReach
      rw [map_number_around h hnil, filter_focus_range', if_neg (by omega),
        List.map_eq_nil_iff, List.filter_eq_nil_iff] at hhigh
      simpa using hhigh shown hshown

/-- The line after the final newline, with the greatest reach that can be asked for; and around the
greatest line number, where no smaller reach is set, a window from line one. -/
theorem extract_shows_neighbourhood_last :
    (∃ excerpt : Excerpt, extract "a\nb\n" 3 Window.maxLine = .ok excerpt.markup
      ∧ excerpt.lines.map Line.number = [1, 2, 3]
      ∧ (excerpt.lines.filter Line.highlighted).map Line.number = [3])
      ∧ Window.around Window.maxLine Window.maxLine Window.maxLine
        = ⟨some 1, some Window.maxLine, some Window.maxLine⟩ := by
  have h : (tokenize "a\nb\n").toOption = some [⟨.html, "a\nb\n", 1⟩] := by decide +kernel
  have hlf : '\r' ∉ "a\nb\n".toList := by decide
  obtain ⟨-, -, -, -, -, -, excerpt, -, hextract, -, hshown, -⟩ :=
    extract_shows_neighbourhood hlf (by decide) (Lexer.tokenize_of_toOption h)
      (show 3 ≤ Window.maxLine by decide) Window.maxLine
  obtain ⟨hnumbers, hhigh⟩ := hshown (by decide)
  obtain ⟨haround, -⟩ := extract_shows_neighbourhood hlf (by decide) (Lexer.tokenize_of_toOption h)
    (Nat.le_refl Window.maxLine) Window.maxLine
  obtain ⟨start, stop, hwindow, rfl, rfl, -⟩ := haround Window.maxLine
  exact ⟨⟨excerpt, hextract, hnumbers, hhigh⟩, hwindow⟩

end Listing
