import Listing.Proofs.Preservation

/-!
# The contents of an excerpt as one text

A span writes one row of markup for each line of its text. No row holds a newline: the classes of
all kinds and roles are free of them (`Kind.newline_notMem_label`), and so is a string, from which
the attributes are taken (`Span.inline_ofRole`). The rows can then be kept as one text with newlines
between them, `Span.markup`, and gluing rows is setting such texts one after the other
(`rows_eq_lines`).

All that a span takes from the place of its token is the role of a name (`Span.ofRole`).
-/

namespace Listing

open Text

/-! ## Markup without newlines -/

namespace Text

theorem newline_notMem_encodeEntities {cs : List Char} (h : '\n' ∉ cs) :
    '\n' ∉ encodeEntities cs := by
  intro hmem
  obtain ⟨c, hc, hentity⟩ := List.mem_flatMap.1 hmem
  rcases entity_cases c with ⟨name, hname, heq⟩ | ⟨heq, -⟩
  · have hnames : ∀ named ∈ entities, '\n' ∉ named.1.toList := by simp [entities]
    rw [heq] at hentity
    exact hnames (name, c) hname hentity
  · have hcn : '\n' = c := by simpa [heq] using hentity
    exact h (hcn ▸ hc)

end Text

theorem Kind.newline_notMem_label (kind : Kind) : '\n' ∉ kind.label.toList := by
  -- from lists of characters, as it takes long to evaluate the text of a literal
  have hword : ∀ {cs : List Char}, '\n' ∉ cs → '\n' ∉ (String.ofList cs).toList := by simp
  have hwords : ∀ {family name : List Char}, '\n' ∉ family → '\n' ∉ name →
      '\n' ∉ (String.ofList family ++ String.ofList name).toList := by
    intro family name hfamily hname
    simp [hfamily, hname]
  cases kind with
  | keyword word | flow word | cast word | tag word | op word | magic word | construct word
  | var word | quoted word | grammar word => cases word <;> exact hwords (by decide) (by decide)
  | callable | badCharacter | float | int | comment | docComment | html | name | punct =>
    exact hword (by decide)

theorem Role.newline_notMem_label (role : Role) : '\n' ∉ role.label.toList := by
  cases role <;> decide

namespace Span

/-- The classes and attributes of the span hold no newline. -/
structure Inline (span : Span) : Prop where
  label : ∀ label, span.label = some label → '\n' ∉ label.toList
  attributes : ∀ named ∈ span.attributes, '\n' ∉ named.1.toList ∧ '\n' ∉ named.2.toList

theorem newline_notMem_attributesMarkup {attributes : List (String × String)}
    (h : ∀ named ∈ attributes, '\n' ∉ named.1.toList ∧ '\n' ∉ named.2.toList) :
    '\n' ∉ attributesMarkup attributes := by
  induction attributes with
  | nil => simp [attributesMarkup]
  | cons named attributes ih =>
    obtain ⟨key, value⟩ := named
    obtain ⟨hkey, hvalue⟩ := h (key, value) List.mem_cons_self
    have hmore := ih fun found hfound => h found (List.mem_cons_of_mem _ hfound)
    rw [attributesMarkup_cons]
    simp [hkey, newline_notMem_encodeEntities hvalue, hmore]

theorem Inline.newline_notMem_part {span : Span} (h : span.Inline) {text : List Char}
    (ht : '\n' ∉ text) : '\n' ∉ span.part text := by
  have htext := newline_notMem_encodeEntities ht
  unfold part
  split
  · exact List.not_mem_nil
  · cases hl : span.label with
    | none => simpa [wrap, hl, escape] using htext
    | some label =>
      have hattributes : '\n' ∉ attributesMarkup (("class", label) :: span.attributes) := by
        refine newline_notMem_attributesMarkup ?_
        intro named hmem
        rcases List.mem_cons.1 hmem with rfl | hmem
        · exact ⟨by simp, h.label label hl⟩
        · exact h.attributes named hmem
      rw [toList_wrap_some hl]
      simp [hattributes, htext]

/-! ## Markup as text -/

/-- What a span adds to a page, as one text with a newline between its rows. -/
def markup (span : Span) : List Char :=
  ofLines span.rows

theorem Inline.lines_markup {span : Span} (h : span.Inline) : lines span.markup = span.rows := by
  refine lines_ofLines ?_ ?_
  · rw [rows, ne_eq, List.map_eq_nil_iff]
    exact lines_ne_nil _
  · intro row hmem
    obtain ⟨text, htext, rfl⟩ := List.mem_map.1 hmem
    exact h.newline_notMem_part (newline_notMem_of_mem_lines htext)

theorem Inline.newlines_markup {span : Span} (h : span.Inline) :
    newlines span.markup = newlines span.text.toList := by
  have hlength := length_lines span.markup
  rw [h.lines_markup, rows, List.length_map, length_lines] at hlength
  omega

end Span

/-- Spans glued to rows are the lines of their markup. -/
theorem foldl_glue_eq_lines {spans : List Span} (h : ∀ span ∈ spans, span.Inline)
    (text : List Char) :
    spans.foldl (fun rows span => glue rows span.rows) (lines text)
      = lines (text ++ spans.flatMap Span.markup) := by
  induction spans generalizing text with
  | nil => simp
  | cons span spans ih =>
    rw [List.foldl_cons, ← (h span List.mem_cons_self).lines_markup, ← lines_append,
      ih fun next hnext => h next (List.mem_cons_of_mem _ hnext)]
    simp

theorem rows_eq_lines {spans : List Span} (h : ∀ span ∈ spans, span.Inline) (hne : spans ≠ []) :
    spans.foldl (fun rows span => glue rows span.rows) []
      = lines (spans.flatMap Span.markup) := by
  cases spans with
  | nil => exact absurd rfl hne
  | cons span spans =>
    have hspan := (h span List.mem_cons_self).lines_markup
    have hmore := foldl_glue_eq_lines (fun next hnext => h next (List.mem_cons_of_mem _ hnext))
      span.markup
    rw [hspan] at hmore
    rw [List.flatMap_cons, ← hmore]
    rfl

/-! ## The span of a token -/

namespace Span

theorem dropLast_sublist (c : Char) (cs : List Char) : (dropLast c cs).Sublist cs := by
  unfold dropLast
  split
  · exact List.dropLast_sublist cs
  · exact List.Sublist.refl cs

theorem splitMark_append (cs : List Char) : (splitMark cs).1 ++ (splitMark cs).2 = cs := by
  unfold splitMark
  split
  · split <;> rfl
  · rfl

theorem inline_ofString {label text : String} (hl : '\n' ∉ label.toList)
    (ht : '\n' ∉ text.toList) :
    (ofString label text).Inline ∧ '\n' ∉ (ofString label text).text.toList := by
  have hparts := splitMark_append text.toList
  unfold ofString
  dsimp only
  split
  · exact ⟨⟨by simpa using hl, by simp⟩, ht⟩
  · next quote inner hinner =>
    rw [hinner] at hparts
    rw [← hparts, List.mem_append, List.mem_cons, not_or, not_or] at ht
    obtain ⟨hmark, hquote, hbody⟩ := ht
    refine ⟨⟨by simpa using hl, ?_⟩, ?_⟩
    · intro named hmem
      rcases List.mem_cons.1 hmem with rfl | hmem
      · simpa using hquote
      · split at hmem
        · cases hmem
        · rw [List.mem_singleton.1 hmem]
          simpa using hmark
    · simpa using fun h => hbody ((dropLast_sublist quote inner).subset h)

/-- The span of a token, if it is a name one with this role. -/
def ofRole (token : Token) (role : Option Role) : Span :=
  if token.kind = .name then ofName token.kind.label token.text role
  else ofToken token .empty []

theorem ofToken_eq_ofRole (token : Token) (history : History) (ahead : List Token) :
    ofToken token history ahead
      = ofRole token (Role.resolve token.text history.toList.tail (ahead.take 2)) := by
  unfold ofRole
  split
  · next hkind => simp [ofToken, hkind]
  · next hkind =>
    unfold ofToken
    split
    · rfl
    · rfl
    · rfl
    · contradiction
    · rfl

theorem inline_ofName (kind : Kind) (text : String) (role : Option Role) :
    (ofName kind.label text role).Inline := by
  have hkind := kind.newline_notMem_label
  cases role with
  | none => exact ⟨by simpa [ofName] using hkind, by simp [ofName]⟩
  | some role =>
    have hrole := role.newline_notMem_label
    exact ⟨by simp [ofName, hkind, hrole], by simp [ofName]⟩

theorem inline_ofRole {token : Token}
    (h : token.kind = .quoted .whole → '\n' ∉ token.text.toList) (role : Option Role) :
    (ofRole token role).Inline
      ∧ newlines (ofRole token role).text.toList = newlines token.text.toList := by
  have hkind := token.kind.newline_notMem_label
  unfold ofRole ofToken
  split
  · refine ⟨inline_ofName _ _ _, ?_⟩
    cases role <;> rfl
  · split
    · exact ⟨⟨by simp, by simp⟩, rfl⟩
    · next hwhole =>
      obtain ⟨hinline, htext⟩ := inline_ofString hkind (h hwhole)
      exact ⟨hinline, by rw [newlines_eq_zero.2 htext, newlines_eq_zero.2 (h hwhole)]⟩
    · split
      · exact ⟨⟨by simp [hkind], by simp⟩, rfl⟩
      · exact ⟨⟨by simpa using hkind, by simp⟩, rfl⟩
    · contradiction
    · exact ⟨⟨by simpa using hkind, by simp⟩, rfl⟩

end Span

end Listing
