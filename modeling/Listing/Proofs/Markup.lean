import Listing.Excerpt.Page
import Listing.Proofs.Entities
import Listing.Proofs.Lines

/-!
# Reading markup back

What a line of an excerpt says once its tags are gone: `Text.stripTags` takes the elements off and
puts the quote and the mark of a string, which the page shows as attributes, back around its text;
`Text.decodeEntities` then reads the five entities. Neither looks at how a page writes.

A line is read back piece by piece through `Text.Denotes`, which is about a piece of markup whatever
follows it, and so is kept when pieces are joined. `Span.denotes_wrap`: what a page writes for a
part of a span is read back as that part, between the span's quotes.
-/

namespace Listing

namespace Text

/-! ## Tags -/

/-- The value of an attribute, of a tag cut at its quotes; nothing if it is not there. -/
def valueOf (name : String) : List (List Char) → List Char
  | key :: value :: more =>
    if key = ' ' :: (name.toList ++ ['=']) then value else valueOf name more
  | _ => []

/-- The rest of a text after its first element ends, where `cs` is what follows the element's
text. -/
def closeTag (cs : List Char) : List Char :=
  (strip? "</span>".toList cs).getD cs

theorem length_closeTag_le (cs : List Char) : (closeTag cs).length ≤ cs.length := by
  unfold closeTag
  cases h : strip? "</span>".toList cs with
  | none => simp
  | some rest =>
    rw [← strip?_eq_some h, List.length_append, Option.getD_some]
    omega

theorem length_after_lt {c : Char} {cs rest : List Char}
    (h : strip? "<span".toList (c :: cs) = some rest) :
    (closeTag (((rest.dropWhile (· != '>')).drop 1).dropWhile (· != '<'))).length
      < (c :: cs).length := by
  have htag := (List.dropWhile_suffix (l := rest) (· != '>')).length_le
  have htext :=
    (List.dropWhile_suffix (l := (rest.dropWhile (· != '>')).drop 1) (· != '<')).length_le
  have hclose := length_closeTag_le (((rest.dropWhile (· != '>')).drop 1).dropWhile (· != '<'))
  have hlen : "<span".toList.length = 5 := rfl
  rw [← strip?_eq_some h, List.length_append, hlen]
  rw [List.length_drop] at htext
  omega

/-- The text of a run of elements and bare text. A string's quote goes back on either side of its
text, and its mark before them. -/
def stripTags : List Char → List Char
  | [] => []
  | c :: cs =>
    match _h : strip? "<span".toList (c :: cs) with
    | none => c :: stripTags cs
    | some rest =>
      let parts := (rest.takeWhile (· != '>')).splitOn '\x22'
      let inner := (rest.dropWhile (· != '>')).drop 1
      let quote := valueOf "data-quote" parts
      valueOf "data-prefix" parts ++ quote ++ inner.takeWhile (· != '<') ++ quote
        ++ stripTags (closeTag (inner.dropWhile (· != '<')))
termination_by cs => cs.length
decreasing_by
  · simp
  · exact length_after_lt _h

/-- What a line of markup says. -/
def decodeMarkup (cs : List Char) : List Char :=
  decodeEntities (stripTags cs)

theorem stripTags_nil : stripTags [] = [] := by simp [stripTags]

theorem stripTags_of_ne {c : Char} (h : c ≠ '<') (cs : List Char) :
    stripTags (c :: cs) = c :: stripTags cs := by
  rw [stripTags]
  split
  · rfl
  · next hfound => simp [strip?, Ne.symm h] at hfound

theorem stripTags_element {head text rest : List Char} (hhead : '>' ∉ head) (htext : '<' ∉ text) :
    stripTags ("<span".toList ++ head ++ '>' :: (text ++ "</span>".toList ++ rest))
      = valueOf "data-prefix" (head.splitOn '\x22') ++ valueOf "data-quote" (head.splitOn '\x22')
        ++ text ++ valueOf "data-quote" (head.splitOn '\x22') ++ stripTags rest := by
  have hopen : ∀ cs : List Char, "<span".toList ++ cs = '<' :: ("span".toList ++ cs) := fun _ => rfl
  have hstrip : strip? "<span".toList
      ('<' :: ("span".toList ++ (head ++ '>' :: (text ++ "</span>".toList ++ rest))))
        = some (head ++ '>' :: (text ++ "</span>".toList ++ rest)) := strip?_append "<span".toList _
  rw [List.append_assoc, hopen, stripTags]
  split
  · next hfound =>
    rw [hstrip] at hfound
    cases hfound
  · next found hfound =>
    rw [hstrip] at hfound
    cases hfound
    have hclosing : text ++ "</span>".toList ++ rest
        = text ++ '<' :: ("/span>".toList ++ rest) := by
      simp
    have hclose : closeTag ('<' :: ("/span>".toList ++ rest)) = rest := by
      have hfound : strip? "</span>".toList ('<' :: ("/span>".toList ++ rest)) = some rest :=
        strip?_append "</span>".toList rest
      rw [closeTag, hfound, Option.getD_some]
    simp only [takeWhile_append_cons hhead, dropWhile_append_cons hhead, List.drop_succ_cons,
      List.drop_zero, hclosing, takeWhile_append_cons htext, dropWhile_append_cons htext, hclose]

/-! ## Pieces of a line -/

/-- Whatever follows it, the markup is read back as the text. -/
def Denotes (markup text : List Char) : Prop :=
  ∀ rest, stripTags (markup ++ rest) = encodeEntities text ++ stripTags rest

theorem Denotes.nil : Denotes [] [] :=
  fun _ => rfl

theorem Denotes.append {front back text more : List Char} (hf : Denotes front text)
    (hb : Denotes back more) : Denotes (front ++ back) (text ++ more) := by
  intro rest
  rw [List.append_assoc, hf, hb, encodeEntities_append, List.append_assoc]

theorem Denotes.decode_eq {markup text : List Char} (h : Denotes markup text) :
    decodeMarkup markup = text := by
  have hstrip : stripTags markup = encodeEntities text := by
    simpa [stripTags_nil] using h []
  rw [decodeMarkup, hstrip, decodeEntities_encodeEntities]

theorem denotes_encodeEntities (cs : List Char) : Denotes (encodeEntities cs) cs := by
  intro rest
  have hbare : ∀ bare : List Char, '<' ∉ bare →
      stripTags (bare ++ rest) = bare ++ stripTags rest := by
    intro bare h
    induction bare with
    | nil => rfl
    | cons c bare ih =>
      rw [List.mem_cons, not_or] at h
      rw [List.cons_append, stripTags_of_ne (Ne.symm h.1), ih h.2, List.cons_append]
  exact hbare _ (notMem_encodeEntities (.inl rfl) cs)

end Text

namespace Span

open Text

/-- A run of attributes as a tag holds them. -/
def attributesMarkup (attributes : List (String × String)) : List Char :=
  attributes.flatMap fun named => (attributeMarkup named).toList

/-- The keys hold no character that ends a key or a tag. -/
def PlainKeys (attributes : List (String × String)) : Prop :=
  ∀ named ∈ attributes, '\x22' ∉ named.1.toList ∧ '>' ∉ named.1.toList

theorem attributesMarkup_cons (key value : String) (attributes : List (String × String)) :
    attributesMarkup ((key, value) :: attributes)
      = ' ' :: (key.toList ++ ['='])
        ++ '\x22' :: (encodeEntities value.toList ++ '\x22' :: attributesMarkup attributes) := by
  simp [attributesMarkup, attributeMarkup, escape]

theorem notMem_attributesMarkup {attributes : List (String × String)} (h : PlainKeys attributes) :
    '>' ∉ attributesMarkup attributes := by
  induction attributes with
  | nil => simp [attributesMarkup]
  | cons named attributes ih =>
    obtain ⟨key, value⟩ := named
    have hkey := (h (key, value) List.mem_cons_self).2
    have hvalue := notMem_encodeEntities (.inr (.inl rfl)) value.toList
    have hmore := ih fun found hfound => h found (List.mem_cons_of_mem _ hfound)
    rw [attributesMarkup_cons]
    simp [hkey, hvalue, hmore]

/-- The value under a key, or nothing. -/
def value (attributes : List (String × String)) (key : String) : List Char :=
  ((attributes.lookup key).getD "").toList

/-- Attributes are found again under their keys. -/
theorem valueOf_attributesMarkup {attributes : List (String × String)} (h : PlainKeys attributes)
    (key : String) :
    valueOf key ((attributesMarkup attributes).splitOn '\x22')
      = encodeEntities (value attributes key) := by
  induction attributes with
  | nil => rfl
  | cons named attributes ih =>
    obtain ⟨found, text⟩ := named
    have hkey : '\x22' ∉ ' ' :: (found.toList ++ ['=']) := by
      simp [(h (found, text) List.mem_cons_self).1]
    have htext := notMem_encodeEntities (.inr (.inr rfl)) text.toList
    have hmore := ih fun next hnext => h next (List.mem_cons_of_mem _ hnext)
    rw [attributesMarkup_cons, List.splitOn_append_cons_self_of_not_mem hkey,
      List.splitOn_append_cons_self_of_not_mem htext]
    by_cases heq : key = found
    · subst heq
      simp [valueOf, value]
    · have hne : ¬found.toList = key.toList := fun he => heq (String.toList_inj.1 he).symm
      have hbeq : (key == found) = false := by simpa using heq
      simp [valueOf, hne, hmore, value, List.lookup_cons, hbeq]

/-- A part of the span's text between the span's quotes. -/
def restore (span : Span) (part : List Char) : List Char :=
  match span.label with
  | none => part
  | some _ =>
    value span.attributes "data-prefix" ++ value span.attributes "data-quote" ++ part
      ++ value span.attributes "data-quote"

theorem toList_wrap_some {span : Span} {label : String} (h : span.label = some label)
    (part : List Char) :
    (span.wrap (String.ofList part)).toList
      = "<span".toList ++ attributesMarkup (("class", label) :: span.attributes)
        ++ '>' :: (encodeEntities part ++ "</span>".toList) := by
  rw [attributesMarkup_cons]
  simp [wrap, h, attributesMarkup, escape, List.flatMap_map]

/-- **What a page writes is read back.** -/
theorem denotes_wrap {span : Span} (h : PlainKeys span.attributes) (part : List Char) :
    Denotes (span.wrap (String.ofList part)).toList (span.restore part) := by
  cases hl : span.label with
  | none =>
    have hwrap : (span.wrap (String.ofList part)).toList = encodeEntities part := by
      simp [wrap, hl, escape]
    have hrestore : span.restore part = part := by simp [restore, hl]
    rw [hwrap, hrestore]
    exact denotes_encodeEntities part
  | some label =>
    have hkeys : PlainKeys (("class", label) :: span.attributes) := by
      intro named hmem
      rcases List.mem_cons.1 hmem with rfl | hmem
      · exact ⟨by simp, by simp⟩
      · exact h named hmem
    intro rest
    rw [toList_wrap_some hl, List.append_assoc, List.cons_append,
      stripTags_element (notMem_attributesMarkup hkeys) (notMem_encodeEntities (.inl rfl) part),
      valueOf_attributesMarkup hkeys, valueOf_attributesMarkup hkeys]
    have hclass : ∀ key, key ≠ "class" →
        value (("class", label) :: span.attributes) key = value span.attributes key := by
      intro key hne
      have hbeq : (key == "class") = false := by simpa using hne
      simp [value, List.lookup_cons, hbeq]
    rw [hclass "data-prefix" (by decide), hclass "data-quote" (by decide)]
    simp [restore, hl, encodeEntities_append]

end Span

end Listing
