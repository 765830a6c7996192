import Listing.Proofs.Page

/-!
# Lines as runs of elements

A line of a page is a run of escaped text and of elements that hold escaped text and nothing else
(`Text.Run`). It is read by deleting the tags, each from `<` to the next `>`, and reading the
entities of what is left (`Text.dropTags`, `Text.decodeEntities`): classes, values and text are free
of the characters that begin or end a tag. So a line gives back its text, whatever the classes and
attributes of the spans on it may say (`Span.forall₂_holds_spans`).

A piece of markup is read in this way whatever follows it (`Text.Holds`), so that the pieces of a
line can be joined.
-/

namespace Listing

namespace Text

/-! ## Runs -/

/-- A key and a value in a tag. -/
def keyed (named : List Char × List Char) : List Char :=
  ' ' :: named.1 ++ '=' :: '\x22' :: named.2 ++ ['\x22']

/-- An element around a text. -/
def element (label : List Char) (attributes : List (List Char × List Char)) (text : List Char) :
    List Char :=
  "<span class=\"".toList ++ label ++ '\x22' :: attributes.flatMap keyed
    ++ '>' :: text ++ "</span>".toList

/-- Escaped text and elements one after the other, no element inside another. -/
inductive Run : List Char → Prop
  | nil : Run []
  | text {text rest : List Char} : Escaped text → Run rest → Run (text ++ rest)
  | element {label text rest : List Char} {attributes : List (List Char × List Char)} :
      Escaped label →
      (∀ named ∈ attributes, '<' ∉ named.1 ∧ '>' ∉ named.1 ∧ Escaped named.2) →
      Escaped text → Run rest → Run (element label attributes text ++ rest)

theorem Run.append {front back : List Char} (hf : Run front) (hb : Run back) :
    Run (front ++ back) := by
  induction hf with
  | nil => exact hb
  | text ht _ ih => rw [List.append_assoc]; exact .text ht ih
  | element hl ha ht _ ih => rw [List.append_assoc]; exact .element hl ha ht ih

/-! ## Deleting tags -/

/-- The text outside of tags, where `inside` says that the text begins within one. -/
def outside (inside : Bool) : List Char → List Char
  | [] => []
  | c :: cs =>
    if inside then outside (c != '>') cs
    else if c = '<' then outside true cs
    else c :: outside false cs

/-- The text without its tags. A tag begins with `<` and goes to the next `>`. -/
def dropTags (cs : List Char) : List Char :=
  outside false cs

theorem dropTags_append {text : List Char} (h : '<' ∉ text) (rest : List Char) :
    dropTags (text ++ rest) = text ++ dropTags rest := by
  induction text with
  | nil => rfl
  | cons c text ih =>
    rw [List.mem_cons, not_or] at h
    have hrest : outside false (text ++ rest) = text ++ dropTags rest := ih h.2
    simp [dropTags, outside, Ne.symm h.1, hrest]

theorem dropTags_tag {tag : List Char} (h : '>' ∉ tag) (rest : List Char) :
    dropTags ('<' :: tag ++ '>' :: rest) = dropTags rest := by
  have hinside : outside true (tag ++ '>' :: rest) = dropTags rest := by
    induction tag with
    | nil => rfl
    | cons c tag ih =>
      rw [List.mem_cons, not_or] at h
      have hc : (c != '>') = true := by simpa using Ne.symm h.1
      rw [List.cons_append, outside, if_pos rfl, hc]
      exact ih h.2
  exact hinside

/-- An element is left with its text. -/
theorem dropTags_element {label text : List Char} {attributes : List (List Char × List Char)}
    (hlabel : Escaped label) (hattributes : ∀ named ∈ attributes, '>' ∉ named.1 ∧ Escaped named.2)
    (htext : Escaped text) (rest : List Char) :
    dropTags (element label attributes text ++ rest) = text ++ dropTags rest := by
  have hkeyed : '>' ∉ attributes.flatMap keyed := by
    rw [List.mem_flatMap]
    rintro ⟨named, hmem, hkeyed⟩
    have hvalue := (hattributes named hmem).2.plain '>' (by decide)
    simp [keyed, (hattributes named hmem).1, hvalue] at hkeyed
  have hopening : '>' ∉
      "span class=\"".toList ++ (label ++ '\x22' :: attributes.flatMap keyed) := by
    simp [hlabel.plain, hkeyed]
  have hclosing : '>' ∉ "/span".toList := by decide
  have hopen : "<span class=\"".toList = '<' :: "span class=\"".toList := by decide
  have hclose : "</span>".toList = '<' :: "/span".toList ++ ['>'] := by decide
  calc dropTags (element label attributes text ++ rest)
    _ = dropTags ('<' :: ("span class=\"".toList ++ (label ++ '\x22' :: attributes.flatMap keyed))
          ++ '>' :: (text ++ ('<' :: "/span".toList ++ '>' :: rest))) := by
      unfold element
      rw [hopen, hclose]
      simp only [List.append_assoc, List.cons_append, List.nil_append]
    _ = text ++ dropTags rest := by
      rw [dropTags_tag hopening, dropTags_append (htext.plain '<' (by decide)),
        dropTags_tag hclosing]

/-! ## Pieces of a line -/

/-- The markup is a run, and read whatever follows it. -/
structure Holds (markup text : List Char) : Prop where
  run : Run markup
  read : ∀ rest, dropTags (markup ++ rest) = encodeEntities text ++ dropTags rest

theorem Holds.nil : Holds [] [] :=
  ⟨.nil, fun _ => rfl⟩

theorem Holds.append {front back text more : List Char} (hf : Holds front text)
    (hb : Holds back more) : Holds (front ++ back) (text ++ more) := by
  refine ⟨hf.run.append hb.run, fun rest => ?_⟩
  rw [List.append_assoc, hf.read, hb.read, encodeEntities_append, List.append_assoc]

theorem Holds.decode_eq {markup text : List Char} (h : Holds markup text) :
    decodeEntities (dropTags markup) = text := by
  have hread : dropTags markup = encodeEntities text := by
    simpa [dropTags, outside] using h.read []
  rw [hread, decodeEntities_encodeEntities]

end Text

open Text

namespace Span

/-- No key of an attribute holds a character that begins or ends a tag. -/
def ClosedKeys (span : Span) : Prop :=
  ∀ named ∈ span.attributes, '<' ∉ named.1.toList ∧ '>' ∉ named.1.toList

theorem attributesMarkup_eq_keyed (attributes : List (String × String)) :
    attributesMarkup attributes = (attributes.map fun named =>
      (named.1.toList, encodeEntities named.2.toList)).flatMap keyed := by
  induction attributes with
  | nil => rfl
  | cons named attributes ih =>
    rw [attributesMarkup_cons, ih, List.map_cons, List.flatMap_cons]
    simp [keyed]

/-- What a labelled span writes for a text is one element. -/
theorem toList_wrap_eq_element {span : Span} {label : String} (h : span.label = some label)
    (text : List Char) :
    (span.wrap (String.ofList text)).toList
      = element (encodeEntities label.toList) (span.attributes.map fun named =>
          (named.1.toList, encodeEntities named.2.toList)) (encodeEntities text) := by
  have hopen : "<span class=\"".toList
      = "<span".toList ++ ' ' :: ("class".toList ++ ['=', '\x22']) := by decide
  rw [toList_wrap_some h, attributesMarkup_cons, attributesMarkup_eq_keyed]
  unfold element
  rw [hopen]
  simp only [List.append_assoc, List.cons_append, List.nil_append]

theorem holds_part {span : Span} (h : span.ClosedKeys) (text : List Char) :
    Holds (span.part text) text := by
  by_cases hne : text = []
  · simp only [hne, part, List.isEmpty_nil, if_true]
    exact .nil
  · rw [part, if_neg (by simpa using hne)]
    have htext := escaped_encodeEntities text
    cases hl : span.label with
    | none =>
      have hbare : (span.wrap (String.ofList text)).toList = encodeEntities text := by
        simp [wrap, hl, escape]
      rw [hbare]
      exact ⟨by simpa using Run.text htext .nil, dropTags_append (htext.plain '<' (by decide))⟩
    | some label =>
      have hlabel := escaped_encodeEntities label.toList
      have hattributes : ∀ named ∈ span.attributes.map fun named =>
          (named.1.toList, encodeEntities named.2.toList),
          '<' ∉ named.1 ∧ '>' ∉ named.1 ∧ Escaped named.2 := by
        intro named hmem
        obtain ⟨attribute_, hattribute, rfl⟩ := List.mem_map.1 hmem
        obtain ⟨hlt, hgt⟩ := h attribute_ hattribute
        exact ⟨hlt, hgt, escaped_encodeEntities _⟩
      rw [toList_wrap_eq_element hl]
      exact ⟨by simpa using Run.element hlabel hattributes htext .nil,
        dropTags_element hlabel (fun named hmem => (hattributes named hmem).2) htext⟩

/-- The rows of a span hold the lines of its text. -/
theorem forall₂_holds_rows {span : Span} (h : span.ClosedKeys) :
    List.Forall₂ Holds span.rows (lines span.text.toList) := by
  rw [rows, List.forall₂_map_left_iff, List.forall₂_same]
  exact fun text _ => holds_part h text

end Span

/-! ## Lines of a page -/

theorem Text.lines_eq_splitOn (cs : List Char) : Text.lines cs = cs.splitOn '\n' := by
  induction cs with
  | nil => rw [List.splitOn_nil, Text.lines_nil]
  | cons c cs ih =>
    rw [List.splitOn_cons_eq_if_modifyHead, ← ih]
    by_cases hc : c = '\n'
    · simp [hc]
    · obtain ⟨row, more, hl⟩ := List.exists_cons_of_ne_nil (Text.lines_ne_nil cs)
      rw [Text.lines_cons_of_ne hc hl, hl, if_neg (by simpa using hc), List.modifyHead_cons]

/-- The rows that a run of spans fills hold the lines of their text. -/
theorem Span.forall₂_holds_spans {spans : List Span} (hkeys : ∀ span ∈ spans, span.ClosedKeys)
    (hne : spans ≠ []) :
    List.Forall₂ Holds (spans.foldl (fun rows span => glue rows span.rows) [])
      ((spans.flatMap (·.text.toList)).splitOn '\n') := by
  rw [← lines_eq_splitOn]
  exact forall₂_foldl_glue_nil Holds.append
    (fun span hspan => forall₂_holds_rows (hkeys span hspan)) hne

end Listing
