import Listing.Proofs.Markup
import Mathlib.Data.List.Forall2

/-!
# What a page holds

A page is its contents, numbered (`Page.ofRows`), and every operation on pages is one on contents: a
new line is an empty row at the end, markup goes to the end of the last row, and a span is glued on
(`push_ofRows`). What is true of a page after a run of spans is then a fact about `Text.glue`, and
pages need not be opened again. If each row that a span adds can be read as a line of text, in
whatever sense survives that two are set one after the other, then so can the rows of the page
(`Text.forall₂_foldl_glue`).
-/

namespace Listing

namespace Span

/-- A part of the span's text as a page writes it: nothing for no text. -/
def part (span : Span) (text : List Char) : List Char :=
  if text.isEmpty then [] else (span.wrap (String.ofList text)).toList

/-- What a span adds to the lines of a page. -/
def rows (span : Span) : List (List Char) :=
  (Text.lines span.text.toList).map span.part

end Span

namespace Page

/-- Contents as lines, numbered from `firstLine` on. -/
def numbered (firstLine : Nat) (focus : Option Nat) (rows : List (List Char)) : List Line :=
  rows.mapIdx fun i row =>
    { number := firstLine + i
      highlighted := focus == some (firstLine + i)
      content := String.ofList row }

theorem getElem?_numbered {firstLine : Nat} {focus : Option Nat} {rows : List (List Char)}
    {i : Nat} {line : Line} (h : (numbered firstLine focus rows)[i]? = some line) :
    ∃ row, rows[i]? = some row ∧ line.number = firstLine + i
      ∧ line.highlighted = (focus == some (firstLine + i)) ∧ line.content = String.ofList row := by
  rw [numbered, List.getElem?_mapIdx, Option.map_eq_some_iff] at h
  obtain ⟨row, hrow, rfl⟩ := h
  exact ⟨row, hrow, rfl, rfl, rfl⟩

theorem mem_numbered {firstLine : Nat} {focus : Option Nat} {rows : List (List Char)} {line : Line}
    (h : line ∈ numbered firstLine focus rows) :
    ∃ i row, rows[i]? = some row ∧ line.number = firstLine + i
      ∧ line.content = String.ofList row := by
  obtain ⟨i, hi⟩ := List.mem_iff_getElem?.1 h
  obtain ⟨row, hrow, hnumber, -, hcontent⟩ := getElem?_numbered hi
  exact ⟨i, row, hrow, hnumber, hcontent⟩

/-- The page with these contents. -/
def ofRows (firstLine : Nat) (focus : Option Nat) (rows : List (List Char)) : Page :=
  { firstLine, focus, filled := (numbered firstLine focus rows).reverse }

theorem start_eq (window : Window) : start window = ofRows window.firstLine window.focus [] := rfl

variable (firstLine : Nat) (focus : Option Nat) (rows above : List (List Char)) (row : List Char)

@[simp]
theorem lines_ofRows : (ofRows firstLine focus rows).lines = numbered firstLine focus rows := by
  simp [lines, ofRows]

theorem filled_ofRows_concat :
    (ofRows firstLine focus (above ++ [row])).filled
      = { number := firstLine + above.length
          highlighted := focus == some (firstLine + above.length)
          content := String.ofList row }
        :: (numbered firstLine focus above).reverse := by
  simp [ofRows, numbered]

theorem nextNumber_ofRows : (ofRows firstLine focus rows).nextNumber = firstLine + rows.length := by
  rcases List.eq_nil_or_concat rows with rfl | ⟨above, row, rfl⟩
  · rfl
  · rw [List.concat_eq_append, nextNumber, filled_ofRows_concat]
    simp [Nat.add_assoc]

theorem openLine_ofRows :
    (ofRows firstLine focus rows).openLine = ofRows firstLine focus (rows ++ [[]]) := by
  rw [openLine, nextNumber_ofRows]
  simp [addLine, ofRows, numbered]

theorem write_ofRows (markup : String) :
    (ofRows firstLine focus (above ++ [row])).write markup
      = ofRows firstLine focus (above ++ [row ++ markup.toList]) := by
  rw [write, filled_ofRows_concat]
  simp [ofRows, numbered]

theorem writePart_ofRows (span : Span) (text : List Char) :
    (ofRows firstLine focus (above ++ [row])).writePart span text
      = ofRows firstLine focus (above ++ [row ++ span.part text]) := by
  unfold writePart Span.part
  split
  · rw [List.append_nil]
  · exact write_ofRows firstLine focus above row _

theorem writeLines_ofRows (span : Span) (text : List Char) (more : List (List Char)) :
    (ofRows firstLine focus (above ++ [row])).writeLines span (text :: more)
      = ofRows firstLine focus (above ++ (row ++ span.part text) :: more.map span.part) := by
  rw [writeLines, writePart_ofRows]
  generalize row ++ span.part text = current
  induction more generalizing above current with
  | nil => rfl
  | cons text more ih =>
    rw [List.foldl_cons, openLine_ofRows, writePart_ofRows, ih]
    simp

/-- A span is glued on. -/
theorem push_ofRows (span : Span) :
    (ofRows firstLine focus rows).push span
      = ofRows firstLine focus (Text.glue rows span.rows) := by
  obtain ⟨text, more, hl⟩ := List.exists_cons_of_ne_nil (Text.lines_ne_nil span.text.toList)
  have hrows : span.rows = span.part text :: more.map span.part := by
    rw [Span.rows, hl, List.map_cons]
  rw [push, hl, hrows]
  rcases List.eq_nil_or_concat rows with rfl | ⟨above, row, rfl⟩
  · -- the first span opens the first line
    have hempty : (ofRows firstLine focus []).filled.isEmpty = true := rfl
    rw [if_pos hempty, openLine_ofRows]
    exact writeLines_ofRows firstLine focus [] [] span text more
  · rw [List.concat_eq_append, Text.glue_concat, if_neg (by simp [filled_ofRows_concat])]
    exact writeLines_ofRows firstLine focus above row span text more

/-- **What a page holds** after a run of spans. -/
theorem foldl_push_ofRows (spans : List Span) :
    spans.foldl push (ofRows firstLine focus rows)
      = ofRows firstLine focus (spans.foldl (fun rows span => Text.glue rows span.rows) rows) := by
  induction spans generalizing rows with
  | nil => rfl
  | cons span spans ih => rw [List.foldl_cons, push_ofRows, ih, List.foldl_cons]

end Page

/-! ## Reading rows as lines -/

namespace Text

section Reading

variable {reads : List Char → List Char → Prop}
  (happend : ∀ {front back text more}, reads front text → reads back more →
    reads (front ++ back) (text ++ more))

include happend in
theorem forall₂_glue {above rows texts more : List (List Char)}
    (ha : List.Forall₂ reads above texts) (hr : List.Forall₂ reads rows more) :
    List.Forall₂ reads (glue above rows) (glue texts more) := by
  induction ha with
  | nil => exact hr
  | cons h ht ih =>
    cases ht with
    | nil =>
      cases hr with
      | nil => exact .cons h .nil
      | cons hnext hmore => exact .cons (happend h hnext) hmore
    | cons hnext ht => exact .cons h ih

include happend in
/-- Rows that are glued to rows are read as the text of the ones after the text of the others. -/
theorem forall₂_foldl_glue {α : Type} {rowsOf : α → List (List Char)} {textOf : α → List Char}
    {items : List α} (h : ∀ item ∈ items, List.Forall₂ reads (rowsOf item) (lines (textOf item)))
    {rows : List (List Char)} {text : List Char} (hr : List.Forall₂ reads rows (lines text)) :
    List.Forall₂ reads (items.foldl (fun rows item => glue rows (rowsOf item)) rows)
      (lines (text ++ items.flatMap textOf)) := by
  induction items generalizing rows text with
  | nil => simpa using hr
  | cons item items ih =>
    have hitem := forall₂_glue happend hr (h item List.mem_cons_self)
    rw [← lines_append] at hitem
    have hmore := ih (fun next hnext => h next (List.mem_cons_of_mem _ hnext)) hitem
    rwa [List.append_assoc] at hmore

include happend in
theorem forall₂_foldl_glue_nil {α : Type} {rowsOf : α → List (List Char)}
    {textOf : α → List Char} {items : List α}
    (h : ∀ item ∈ items, List.Forall₂ reads (rowsOf item) (lines (textOf item)))
    (hne : items ≠ []) :
    List.Forall₂ reads (items.foldl (fun rows item => glue rows (rowsOf item)) [])
      (lines (items.flatMap textOf)) := by
  cases items with
  | nil => exact absurd rfl hne
  | cons item items =>
    exact forall₂_foldl_glue happend (fun next hnext => h next (List.mem_cons_of_mem _ hnext))
      (h item List.mem_cons_self)

end Reading

theorem getElem?_of_forall₂ {reads : List Char → List Char → Prop} {rows texts : List (List Char)}
    (h : List.Forall₂ reads rows texts) {i : Nat} {row : List Char} (hi : rows[i]? = some row) :
    ∃ text, texts[i]? = some text ∧ reads row text := by
  obtain ⟨hlt, rfl⟩ := List.getElem?_eq_some_iff.1 hi
  have hlt' : i < texts.length := h.length_eq ▸ hlt
  exact ⟨texts[i], List.getElem?_eq_getElem hlt', h.get hlt hlt'⟩

end Text

end Listing
