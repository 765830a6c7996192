import Listing.Proofs.Page

/-!
# Cutting a span

A walk cuts tokens at newlines, now after the newline and now before it, and a page should not show
where. It is enough to look at the one line on which the cut falls: the lines above it are written
before, and those below it after, in the same way (`exists_push_append`). On that line a span writes
the two parts of its text as it writes them in one go if one of them is empty, as it is next to a
newline, or if the text is bare; otherwise there are two elements in place of one
(`Span.part_append_iff`).
-/

namespace Listing

namespace Text

/-- The last line of a text is empty if the text is empty or ends with a newline. -/
theorem exists_lines_concat (cs : List Char) :
    ∃ above row, lines cs = above ++ [row] ∧ (row = [] ↔ cs = [] ∨ cs.getLast? = some '\n') := by
  rcases List.eq_nil_or_concat cs with rfl | ⟨front, c, rfl⟩
  · exact ⟨[], [], rfl, by simp⟩
  · rw [List.concat_eq_append, lines_append]
    rcases List.eq_nil_or_concat (lines front) with hnil | ⟨above, row, hl⟩
    · exact absurd hnil (lines_ne_nil front)
    · rw [hl, List.concat_eq_append]
      by_cases hc : c = '\n'
      · refine ⟨above ++ [row], [], ?_, by simp [hc]⟩
        rw [hc, lines_cons_newline, glue_concat]
        simp
      · refine ⟨above, row ++ [c], ?_, by simp [hc]⟩
        rw [lines_cons_of_ne hc lines_nil, glue_concat]

/-- The first line of a text is empty if the text is empty or begins with a newline. -/
theorem exists_lines_cons (cs : List Char) :
    ∃ row more, lines cs = row :: more ∧ (row = [] ↔ cs = [] ∨ cs.head? = some '\n') := by
  cases cs with
  | nil => exact ⟨[], [], rfl, by simp⟩
  | cons c cs =>
    by_cases hc : c = '\n'
    · exact ⟨[], lines cs, by simp [hc], by simp [hc]⟩
    · obtain ⟨row, more, hl⟩ := List.exists_cons_of_ne_nil (lines_ne_nil cs)
      exact ⟨c :: row, more, lines_cons_of_ne hc hl, by simp [hc]⟩

end Text

open Text

/-! ## On one line -/

/-- A span writes two parts of a line as one if it is bare, or if one of them is empty. -/
theorem Span.part_append_iff (span : Span) (front back : List Char) :
    span.part (front ++ back) = span.part front ++ span.part back
      ↔ span.label = none ∨ front = [] ∨ back = [] := by
  by_cases hf : front = []
  · simp [hf, part]
  · by_cases hb : back = []
    · simp [hb, part]
    · have hwrap : ∀ text, text ≠ [] → span.part text = (span.wrap (String.ofList text)).toList :=
        fun text h => by rw [part, if_neg (by simpa using h)]
      rw [hwrap _ (by simp [hf]), hwrap _ hf, hwrap _ hb]
      cases hl : span.label with
      | none => simp [wrap, hl, escape, encodeEntities_append]
      | some label =>
        refine iff_of_false (fun h => ?_) (by simp [hf, hb])
        -- two elements are longer than one
        have hlength := congrArg List.length h
        simp only [toList_wrap_some hl, encodeEntities_append, List.length_append,
          List.length_cons] at hlength
        omega

namespace Page

theorem writePart_eq_write (page : Page) (span : Span) (text : List Char) :
    page.writePart span text = page.write (String.ofList (span.part text)) := by
  unfold writePart Span.part
  split
  · obtain ⟨firstLine, focus, filled⟩ := page
    cases filled <;> simp [write]
  · rw [String.ofList_toList]

theorem write_write (page : Page) (front back : String) :
    (page.write front).write back = page.write (front ++ back) := by
  obtain ⟨firstLine, focus, filled⟩ := page
  cases filled <;> simp [write, String.append_assoc]

theorem write_inj {page : Page} (h : page.filled ≠ []) {markup other : String} :
    page.write markup = page.write other ↔ markup = other := by
  obtain ⟨firstLine, focus, filled⟩ := page
  cases filled with
  | nil => exact absurd rfl h
  | cons line above => simp [write]

theorem filled_writePart_ne_nil {page : Page} (h : page.filled ≠ []) (span : Span)
    (text : List Char) : (page.writePart span text).filled ≠ [] := by
  obtain ⟨firstLine, focus, filled⟩ := page
  rw [writePart_eq_write]
  cases filled with
  | nil => exact absurd rfl h
  | cons line above => simp [write]

theorem writePart_append_iff {page : Page} (h : page.filled ≠ []) (span : Span)
    (front back : List Char) :
    page.writePart span (front ++ back) = (page.writePart span front).writePart span back
      ↔ span.label = none ∨ front = [] ∨ back = [] := by
  rw [writePart_eq_write, writePart_eq_write page, writePart_eq_write _ span back, write_write,
    write_inj h, ← String.ofList_append, String.ofList_inj, Span.part_append_iff]

/-! ## The lines above and below -/

/-- The page with a part of a span's text on a new line. -/
def writeLine (span : Span) (page : Page) (text : List Char) : Page :=
  page.openLine.writePart span text

/-- The page without its current line. -/
def dropLine (page : Page) : Page :=
  { page with filled := page.filled.tail }

theorem dropLine_writeLine (span : Span) (page : Page) (text : List Char) :
    (page.writeLine span text).dropLine = page := by
  rw [writeLine, writePart_eq_write]
  rfl

theorem foldl_writeLine_inj {span : Span} {page other : Page} {more : List (List Char)} :
    more.foldl (writeLine span) page = more.foldl (writeLine span) other ↔ page = other := by
  refine ⟨fun h => ?_, fun h => by rw [h]⟩
  induction more generalizing page other with
  | nil => exact h
  | cons text more ih =>
    have hline := congrArg dropLine (ih h)
    rwa [dropLine_writeLine, dropLine_writeLine] at hline

/-- Where the writing has come to when it is at a row. -/
theorem exists_writeLines {page : Page} (h : page.filled ≠ []) (span : Span)
    (above : List (List Char)) :
    ∃ reached : Page, reached.filled ≠ [] ∧ ∀ row more,
      page.writeLines span (above ++ row :: more)
        = more.foldl (writeLine span) (reached.writePart span row) := by
  cases above with
  | nil => exact ⟨page, h, fun _ _ => rfl⟩
  | cons first above =>
    refine ⟨(above.foldl (writeLine span) (page.writePart span first)).openLine, ?_, ?_⟩
    · simp [openLine, addLine]
    · intro row more
      exact List.foldl_append

theorem push_of_ne_nil {page : Page} (h : page.filled ≠ []) (span : Span) :
    page.push span = page.writeLines span (Text.lines span.text.toList) := by
  rw [push, if_neg (by simpa using h)]

/-- A push writes on a line that is there, or on the first line of the page. -/
theorem exists_push (page : Page) :
    ∃ opened : Page, opened.filled ≠ []
      ∧ ∀ span, page.push span = opened.writeLines span (Text.lines span.text.toList) := by
  by_cases h : page.filled = []
  · exact ⟨page.openLine, by simp [openLine, addLine], fun span => by simp [push, h]⟩
  · exact ⟨page, h, push_of_ne_nil h⟩

/-- A text that is pushed in one go and in two parts, each as it goes on from the page on which the
line with the cut is to be written. -/
theorem exists_push_append (page : Page) (span : Span) (front back : String) :
    ∃ reached : Page, ∃ (row next : List Char) (more : List (List Char)), reached.filled ≠ []
      ∧ page.push { span with text := front ++ back }
        = more.foldl (writeLine span) (reached.writePart span (row ++ next))
      ∧ (page.push { span with text := front }).push { span with text := back }
        = more.foldl (writeLine span) ((reached.writePart span row).writePart span next)
      ∧ (row = [] ↔ front.toList = [] ∨ front.toList.getLast? = some '\n')
      ∧ (next = [] ↔ back.toList = [] ∨ back.toList.head? = some '\n') := by
  obtain ⟨above, row, hfront, hrow⟩ := exists_lines_concat front.toList
  obtain ⟨next, more, hback, hnext⟩ := exists_lines_cons back.toList
  obtain ⟨opened, hopened, hpush⟩ := page.exists_push
  obtain ⟨reached, hreached, hwritten⟩ := exists_writeLines hopened span above
  have hwhole : page.push { span with text := front ++ back }
      = more.foldl (writeLine span) (reached.writePart span (row ++ next)) := by
    rw [hpush, String.toList_append, lines_append, hfront, hback, glue_concat]
    exact hwritten (row ++ next) more
  have hfirst : page.push { span with text := front } = reached.writePart span row := by
    rw [hpush, hfront]
    exact hwritten row []
  have hparts : (page.push { span with text := front }).push { span with text := back }
      = more.foldl (writeLine span) ((reached.writePart span row).writePart span next) := by
    rw [hfirst, push_of_ne_nil (filled_writePart_ne_nil hreached span row), hback]
    rfl
  exact ⟨reached, row, next, more, hreached, hwhole, hparts, hrow, hnext⟩

/-- **A cut next to a newline is not seen.** A text that is pushed in two parts, with the classes
and attributes of the whole, gives the page that the whole gives if the cut is next to a newline,
and otherwise only if the text is bare or one of the parts is empty. -/
theorem push_append_iff (page : Page) (span : Span) (front back : String) :
    page.push { span with text := front ++ back }
        = (page.push { span with text := front }).push { span with text := back }
      ↔ span.label = none ∨ (front = "" ∨ front.toList.getLast? = some '\n')
        ∨ (back = "" ∨ back.toList.head? = some '\n') := by
  obtain ⟨reached, row, next, more, hne, hwhole, hparts, hrow, hnext⟩ :=
    exists_push_append page span front back
  rw [hwhole, hparts, foldl_writeLine_inj, writePart_append_iff hne, hrow, hnext,
    String.toList_eq_nil_iff, String.toList_eq_nil_iff]

end Page

end Listing
