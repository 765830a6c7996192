import Listing.Text.Cut
import Listing.Text.Entity

/-!
# Reading entities back

`Text.decodeEntities` reads the five entities from left to right, and takes each for a character at
once, so that what it has read is not looked at again. A text that has been written with entities is
read back from the entity, or the one character, of its first character on, whatever follows
(`decodeEntities_entity`), and no text can be mistaken for an entity that begins before it.

The texts that come of writing are told without the writer (`Text.Escaped`): none of the characters
that markup is made of stands in them, but for the ampersand of an entity. On these texts reading
and writing undo each other (`encodeEntities_decodeEntities`).
-/

namespace Listing

namespace Text

/-! ## Entities -/

/-- The five entities. -/
def entities : List (String × Char) :=
  [("&amp;", '&'), ("&lt;", '<'), ("&gt;", '>'), ("&quot;", '\x22'), ("&#039;", '\x27')]

/-- The character that the entity at the front of a text stands for, and what follows it. -/
def entity? (cs : List Char) : Option (Char × List Char) :=
  entities.findSome? fun (name, c) => (strip? name.toList cs).map (c, ·)

theorem entities_ne_nil : ∀ named ∈ entities, named.1.toList ≠ [] := by decide

theorem exists_of_entity? {cs rest : List Char} {c : Char} (h : entity? cs = some (c, rest)) :
    ∃ name, (name, c) ∈ entities ∧ name.toList ++ rest = cs := by
  obtain ⟨⟨name, d⟩, hmem, hstrip⟩ := List.exists_of_findSome?_eq_some h
  simp only [Option.map_eq_some_iff, Prod.mk.injEq] at hstrip
  obtain ⟨after, hafter, rfl, rfl⟩ := hstrip
  exact ⟨name, hmem, strip?_eq_some hafter⟩

theorem length_of_entity? {cs rest : List Char} {c : Char} (h : entity? cs = some (c, rest)) :
    rest.length < cs.length := by
  obtain ⟨name, hmem, rfl⟩ := exists_of_entity? h
  have hlen : 0 < name.toList.length := List.length_pos_iff.2 (entities_ne_nil (name, c) hmem)
  rw [List.length_append]
  omega

/-- The text with the characters that its entities stand for. -/
def decodeEntities : List Char → List Char
  | [] => []
  | c :: cs =>
    match _h : entity? (c :: cs) with
    | some (d, rest) => d :: decodeEntities rest
    | none => c :: decodeEntities cs
termination_by cs => cs.length
decreasing_by
  · exact length_of_entity? _h
  · simp

theorem entity_of_mem {name : String} {c : Char} (h : (name, c) ∈ entities) :
    entity c = name.toList := by
  simp only [entities, List.mem_cons, Prod.mk.injEq, List.not_mem_nil, or_false] at h
  rcases h with ⟨rfl, rfl⟩ | ⟨rfl, rfl⟩ | ⟨rfl, rfl⟩ | ⟨rfl, rfl⟩ | ⟨rfl, rfl⟩ <;> rfl

/-- A character is written as its entity or, if it has none, as itself. -/
theorem entity_cases (c : Char) :
    (∃ name, (name, c) ∈ entities ∧ entity c = name.toList)
      ∨ entity c = [c] ∧ ∀ named ∈ entities, named.2 ≠ c := by
  by_cases hmem : c ∈ entities.map Prod.snd
  · obtain ⟨⟨name, d⟩, hname, rfl⟩ := List.mem_map.1 hmem
    exact .inl ⟨name, hname, entity_of_mem hname⟩
  · refine .inr ⟨?_, ?_⟩
    · simp only [entities, List.map_cons, List.map_nil, List.mem_cons, List.not_mem_nil,
        or_false, not_or] at hmem
      simp [entity, hmem]
    · intro named hn hc
      exact hmem (hc ▸ List.mem_map_of_mem hn)

theorem entity?_append {name : String} {c : Char} (h : (name, c) ∈ entities) (rest : List Char) :
    entity? (name.toList ++ rest) = some (c, rest) := by
  simp only [entities, List.mem_cons, Prod.mk.injEq, List.not_mem_nil, or_false] at h
  rcases h with ⟨rfl, rfl⟩ | ⟨rfl, rfl⟩ | ⟨rfl, rfl⟩ | ⟨rfl, rfl⟩ | ⟨rfl, rfl⟩ <;> rfl

/-- Every entity begins with an ampersand. -/
theorem entity?_of_ne {c : Char} (h : c ≠ '&') (rest : List Char) : entity? (c :: rest) = none := by
  simp [entity?, entities, strip?, Ne.symm h]

theorem decodeEntities_of_some {cs rest : List Char} {c : Char}
    (h : entity? cs = some (c, rest)) : decodeEntities cs = c :: decodeEntities rest := by
  have hlen := length_of_entity? h
  fun_cases decodeEntities cs with
  | case1 => simp at hlen
  | case2 d cs found more hfound =>
    rw [h] at hfound
    cases hfound
    rfl
  | case3 d cs hfound =>
    rw [h] at hfound
    cases hfound

theorem decodeEntities_of_none {cs : List Char} {c : Char} (h : entity? (c :: cs) = none) :
    decodeEntities (c :: cs) = c :: decodeEntities cs := by
  rw [decodeEntities]
  split
  · next hfound =>
    rw [h] at hfound
    cases hfound
  · rfl

theorem decodeEntities_entity (c : Char) (rest : List Char) :
    decodeEntities (entity c ++ rest) = c :: decodeEntities rest := by
  rcases entity_cases c with ⟨name, hname, heq⟩ | ⟨heq, hnone⟩
  · rw [heq, decodeEntities_of_some (entity?_append hname rest)]
  · have hamp : c ≠ '&' := fun h => hnone ("&amp;", '&') (by decide) h.symm
    rw [heq]
    exact decodeEntities_of_none (entity?_of_ne hamp rest)

theorem encodeEntities_cons (c : Char) (cs : List Char) :
    encodeEntities (c :: cs) = entity c ++ encodeEntities cs :=
  List.flatMap_cons

theorem encodeEntities_append (front back : List Char) :
    encodeEntities (front ++ back) = encodeEntities front ++ encodeEntities back := by
  simp [encodeEntities]

theorem decodeEntities_encodeEntities (cs : List Char) :
    decodeEntities (encodeEntities cs) = cs := by
  induction cs with
  | nil => simp [encodeEntities, decodeEntities]
  | cons c cs ih => rw [encodeEntities_cons, decodeEntities_entity, ih]

/-! ## Escaped text -/

/-- No character that markup is made of, but for the ampersands of entities. -/
structure Escaped (cs : List Char) : Prop where
  plain : ∀ c ∈ ['<', '>', '\x22', '\x27'], c ∉ cs
  entity : ∀ before after, cs = before ++ '&' :: after →
    ∃ named ∈ entities, named.1.toList <+: '&' :: after

theorem Escaped.append {front back : List Char} (hf : Escaped front) (hb : Escaped back) :
    Escaped (front ++ back) := by
  refine ⟨fun c hc => ?_, fun before after h => ?_⟩
  · rw [List.mem_append, not_or]
    exact ⟨hf.plain c hc, hb.plain c hc⟩
  · rcases List.append_eq_append_iff.1 h with ⟨between, rfl, hback⟩ | ⟨between, hfront, hrest⟩
    · exact hb.entity between after hback
    · cases between with
      | nil => exact hb.entity [] after hrest.symm
      | cons c between =>
        obtain ⟨rfl, rfl⟩ := List.cons.inj hrest
        obtain ⟨named, hmem, hprefix⟩ := hf.entity before between hfront
        exact ⟨named, hmem, hprefix.trans (List.prefix_append _ back)⟩

theorem Escaped.of_append {front back : List Char} (h : Escaped (front ++ back)) : Escaped back := by
  refine ⟨fun c hc hmem => h.plain c hc (List.mem_append_right front hmem), ?_⟩
  rintro before after rfl
  exact h.entity (front ++ before) after (List.append_assoc ..).symm

/-- The name of an entity has one ampersand, in front. -/
theorem escaped_of_mem_entities {named : String × Char} (h : named ∈ entities) :
    Escaped named.1.toList := by
  have hplain : ∀ named ∈ entities, ∀ c ∈ ['<', '>', '\x22', '\x27'], c ∉ named.1.toList := by
    simp [entities]
  have hone : ∀ named ∈ entities, '&' ∉ named.1.toList.tail := by
    simp [entities]
  refine ⟨hplain named h, fun before after heq => ⟨named, h, ?_⟩⟩
  cases before with
  | nil => exact ⟨[], (List.append_nil _).trans heq⟩
  | cons c before =>
    have htail := hone named h
    rw [heq] at htail
    simp at htail

theorem escaped_entity (c : Char) : Escaped (entity c) := by
  rcases entity_cases c with ⟨name, hname, heq⟩ | ⟨heq, hnone⟩
  · rw [heq]
    exact escaped_of_mem_entities hname
  · have htable : ∀ d ∈ ['<', '>', '\x22', '\x27', '&'], d ≠ c := by
      intro d hd hdc
      have hentity : ∀ d ∈ ['<', '>', '\x22', '\x27', '&'], ∃ named ∈ entities, named.2 = d := by
        simp [entities]
      obtain ⟨named, hmem, hsnd⟩ := hentity d hd
      exact hnone named hmem (hsnd.trans hdc)
    rw [heq]
    refine ⟨fun d hd => ?_, fun before after h => ?_⟩
    · rw [List.mem_singleton]
      exact htable d (List.mem_append_left ['&'] hd)
    · have hamp : '&' ∈ [c] := by simp [h]
      exact absurd (List.mem_singleton.1 hamp) (htable '&' (by decide))

theorem escaped_encodeEntities (cs : List Char) : Escaped (encodeEntities cs) := by
  induction cs with
  | nil => exact ⟨by simp [encodeEntities], by simp [encodeEntities]⟩
  | cons c cs ih => exact (escaped_entity c).append ih

/-- Encoded text holds no character that ends a tag, a value or a text. -/
theorem notMem_encodeEntities {d : Char} (hd : d = '<' ∨ d = '>' ∨ d = '\x22') (cs : List Char) :
    d ∉ encodeEntities cs := by
  refine (escaped_encodeEntities cs).plain d ?_
  rcases hd with rfl | rfl | rfl <;> decide

/-- At the front of an escaped text, a character that begins no entity stands for itself. -/
theorem Escaped.entity_of_none {c : Char} {cs : List Char} (h : Escaped (c :: cs))
    (hnone : entity? (c :: cs) = none) : Text.entity c = [c] := by
  rcases entity_cases c with ⟨name, hname, -⟩ | ⟨heq, -⟩
  · have htable : ∀ named ∈ entities,
        named.2 = '&' ∨ named.2 ∈ ['<', '>', '\x22', '\x27'] := by decide
    rcases htable (name, c) hname with rfl | hmarkup
    · obtain ⟨⟨found, d⟩, hmem, rest, hrest⟩ := h.entity [] cs rfl
      rw [← hrest, entity?_append hmem] at hnone
      cases hnone
    · exact absurd List.mem_cons_self (h.plain c hmarkup)
  · exact heq

/-- An escaped text is what is written for the text that is read off it. -/
theorem encodeEntities_decodeEntities {cs : List Char} (h : Escaped cs) :
    encodeEntities (decodeEntities cs) = cs := by
  fun_induction decodeEntities cs with
  | case1 => rfl
  | case2 c cs d rest hfound ih =>
    obtain ⟨name, hname, hsplit⟩ := exists_of_entity? hfound
    rw [← hsplit] at h
    rw [encodeEntities_cons, ih h.of_append, entity_of_mem hname, hsplit]
  | case3 c cs hnone ih =>
    have hrest : Escaped cs := @Escaped.of_append [c] cs h
    rw [encodeEntities_cons, ih hrest, h.entity_of_none hnone, List.singleton_append]

end Text

/-! ## Texts -/

/-- The text with the characters that its entities stand for. -/
def unescape (markup : String) : String :=
  String.ofList (Text.decodeEntities markup.toList)

/-- **Escaping is safe and can be undone.** It works on the parts of a text by themselves; the
result holds none of the characters that markup is made of, but for the ampersands of entities; and
reading the entities gives back the text, whatever it looks like. All markup of this form is the
result of escaping what it is read as, so no text has another. -/
theorem escape_safe_and_reversible (text more : String) :
    escape (text ++ more) = escape text ++ escape more
      ∧ Text.Escaped (escape text).toList
      ∧ unescape (escape text) = text
      ∧ ∀ markup, Text.Escaped markup.toList → escape (unescape markup) = markup := by
  refine ⟨?_, ?_, ?_, fun markup h => ?_⟩
  · simp only [escape, String.toList_append, Text.encodeEntities_append, String.ofList_append]
  · rw [escape, String.toList_ofList]
    exact Text.escaped_encodeEntities text.toList
  · rw [unescape, escape, String.toList_ofList, Text.decodeEntities_encodeEntities,
      String.ofList_toList]
  · rw [escape, unescape, String.toList_ofList, Text.encodeEntities_decodeEntities h,
      String.ofList_toList]

/-- A text that is an entity where its two parts meet. -/
theorem escape_safe_and_reversible_seam :
    escape ("&" ++ "lt;") = "&amp;lt;" ∧ unescape "&amp;lt;" = "&lt;"
      ∧ Text.Escaped "&amp;lt;".toList ∧ escape (unescape "&amp;lt;") = "&amp;lt;" := by
  obtain ⟨hparts, -, -, hback⟩ := escape_safe_and_reversible "&" "lt;"
  have hseam : escape ("&" ++ "lt;") = "&amp;lt;" := by
    rw [hparts]
    decide
  obtain ⟨-, hsafe, hread, -⟩ := escape_safe_and_reversible "&lt;" ""
  have hwhole : escape "&lt;" = "&amp;lt;" := hseam
  rw [hwhole] at hsafe hread
  exact ⟨hseam, hread, hsafe, hback _ hsafe⟩

end Listing
