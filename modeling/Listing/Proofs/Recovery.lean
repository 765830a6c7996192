import Listing.Proofs.Labels

/-!
# An excerpt from its markup

The markup of an excerpt is set line by line, with the contents of a line spliced in as they are
between wrappers of the same elements. It can be taken apart again because no content runs over
lines: a row of the block is one line of the excerpt, or a mark; a row of a line begins in one of
two ways and then with a number, and what is left of it up to the last closing tag is the content.

`Excerpt.ofMarkup?` is this reading, and `Excerpt.ofMarkup?_markup` says that nothing is lost on
the way; `inline_renderTokens` that the excerpts of a source have contents of that kind.
-/

namespace Listing

open Text

/-! ## Taking a text off the end -/

namespace Text

/-- What is left of a text before a known end. -/
def stripEnd? (ending cs : List Char) : Option (List Char) :=
  (strip? ending.reverse cs.reverse).map List.reverse

@[simp]
theorem stripEnd?_append (front ending : List Char) :
    stripEnd? ending (front ++ ending) = some front := by
  simp [stripEnd?]

end Text

/-! ## Rows -/

/-- The mark that a row shows. -/
def Edge.ofMarkup? (row : List Char) : Option Edge :=
  [Edge.ellipsis, Edge.spacer].find? fun edge => edge.markup.toList == row

theorem Edge.ofMarkup?_markup (edge : Edge) : ofMarkup? edge.markup.toList = some edge := by
  cases edge <;> decide +kernel

theorem Edge.newline_notMem_markup (edge : Edge) : '\n' ∉ edge.markup.toList := by
  cases edge <;> decide +kernel

namespace Line

/-- The word for a highlighted line, if it is next, and what follows it. -/
def flag (row : List Char) : Bool × List Char :=
  match strip? " highlighted".toList row with
  | some rest => (true, rest)
  | none => (false, row)

/-- The number that is next, and what follows it. -/
def number? (row : List Char) : Option (Nat × List Char) :=
  if headIs Char.isDigit row then
    some (Nat.ofDigitChars 10 (row.takeWhile Char.isDigit) 0, row.dropWhile Char.isDigit)
  else none

/-- The line that a row shows. -/
def ofMarkup? (row : List Char) : Option Line := do
  let start ← strip? "<span class=\"line".toList row
  let (highlighted, tag) := flag start
  let (number, rest) ← number? (← strip? "\"><span class=\"number\">".toList tag)
  let content ← stripEnd? "</span>".toList (← strip? "</span>".toList rest)
  return { number, highlighted, content := String.ofList content }

theorem flag_append (highlighted : Bool) (rest : List Char) :
    flag ((if highlighted then " highlighted" else "").toList ++ '\x22' :: rest)
      = (highlighted, '\x22' :: rest) := by
  cases highlighted with
  | true =>
    rw [flag, if_pos rfl, strip?_append]
  | false => rfl

theorem toList_toString_number (n : Nat) : (toString n).toList = Nat.toDigits 10 n := by
  rw [Nat.toString_eq_repr, Nat.toList_repr]

theorem isDigit_of_mem_number {n : Nat} {c : Char} (h : c ∈ (toString n).toList) :
    c.isDigit = true := by
  rw [toList_toString_number] at h
  exact Nat.isDigit_of_mem_toDigits (by decide) (by decide) h

theorem number?_append (n : Nat) (rest : List Char) :
    number? ((toString n).toList ++ '<' :: rest) = some (n, '<' :: rest) := by
  have hdigits : ∀ c ∈ (toString n).toList, c.isDigit = true := fun _ => isDigit_of_mem_number
  -- The closing tag is no digit, so the digits taken are those of the number.
  have htake :
      ((toString n).toList ++ '<' :: rest).takeWhile Char.isDigit = (toString n).toList := by
    rw [List.takeWhile_append_of_pos hdigits]
    simp
  have hdrop : ((toString n).toList ++ '<' :: rest).dropWhile Char.isDigit = '<' :: rest := by
    rw [List.dropWhile_append_of_pos hdigits]
    rfl
  have hhead : headIs Char.isDigit ((toString n).toList ++ '<' :: rest) = true := by
    obtain ⟨c, cs, hcs⟩ := List.exists_cons_of_ne_nil
      (show (toString n).toList ≠ [] by rw [toList_toString_number]; exact Nat.toDigits_ne_nil)
    rw [hcs] at hdigits ⊢
    exact hdigits c List.mem_cons_self
  rw [number?, if_pos hhead, htake, hdrop, toList_toString_number,
    Nat.ofDigitChars_toDigits (by decide) (by decide)]

theorem toList_markup (line : Line) :
    line.markup.toList
      = "<span class=\"line".toList ++ ((if line.highlighted then " highlighted" else "").toList
        ++ ("\"><span class=\"number\">".toList ++ ((toString line.number).toList
          ++ ("</span>".toList ++ (line.content.toList ++ "</span>".toList))))) := by
  unfold markup
  simp only [String.toList_append, List.append_assoc]

/-- A row is read back as its line, whatever the content. -/
theorem ofMarkup?_markup (line : Line) : ofMarkup? line.markup.toList = some line := by
  have hquote : ∀ cs : List Char, "\"><span class=\"number\">".toList ++ cs
      = '\x22' :: ("><span class=\"number\">".toList ++ cs) := fun _ => rfl
  have hclose : ∀ cs : List Char, "</span>".toList ++ cs = '<' :: ("/span>".toList ++ cs) :=
    fun _ => rfl
  rw [toList_markup, ofMarkup?, strip?_append, Option.bind_eq_bind, Option.bind_some]
  rw [hquote, flag_append, ← hquote]
  dsimp only
  rw [strip?_append, Option.bind_eq_bind, Option.bind_some, hclose, number?_append, ← hclose,
    Option.bind_some, strip?_append, Option.bind_some, stripEnd?_append, Option.bind_some,
    String.ofList_toList]
  rfl

theorem newline_notMem_markup {line : Line} (h : '\n' ∉ line.content.toList) :
    '\n' ∉ line.markup.toList := by
  have hnumber : '\n' ∉ (toString line.number).toList :=
    fun hmem => absurd (isDigit_of_mem_number hmem) (by decide)
  have hhighlight : '\n' ∉ (if line.highlighted then " highlighted" else "").toList := by
    split <;> decide
  rw [toList_markup]
  simp only [List.mem_append, not_or]
  exact ⟨by decide, hhighlight, by decide, hnumber, by decide, h, by decide⟩

end Line

/-! ## Blocks -/

namespace Excerpt

/-- No content runs over lines. -/
def Inline (excerpt : Excerpt) : Prop :=
  ∀ line ∈ excerpt.lines, '\n' ∉ line.content.toList

/-- The rows of the block: a mark, the lines, and a mark. -/
def rows (excerpt : Excerpt) : List (List Char) :=
  excerpt.leading.markup.toList
    :: (excerpt.lines.map (·.markup.toList) ++ [excerpt.trailing.markup.toList])

/-- The excerpt that rows show. -/
def ofRows? : List (List Char) → Option Excerpt
  | [] => none
  | first :: more => do
    let leading ← Edge.ofMarkup? first
    let trailing ← Edge.ofMarkup? (← more.getLast?)
    let lines ← more.dropLast.mapM Line.ofMarkup?
    return { leading, lines, trailing }

/-- The excerpt that a block of markup shows. -/
def ofMarkup? (markup : String) : Option Excerpt := do
  let block ← strip? "<samp class=\"source\">".toList markup.toList
  ofRows? (Text.lines (← stripEnd? "</samp>".toList block))

theorem mapM_ofMarkup? (lines : List Line) :
    (lines.map (·.markup.toList)).mapM Line.ofMarkup? = some lines := by
  induction lines with
  | nil => rfl
  | cons line lines ih =>
    rw [List.map_cons, List.mapM_cons, Line.ofMarkup?_markup, ih]
    rfl

theorem ofRows?_rows (excerpt : Excerpt) : ofRows? excerpt.rows = some excerpt := by
  rw [rows, ofRows?, Edge.ofMarkup?_markup, List.getLast?_concat, List.dropLast_concat]
  simp only [Option.bind_eq_bind, Option.bind_some, Edge.ofMarkup?_markup, mapM_ofMarkup?]
  rfl

theorem toList_markup (excerpt : Excerpt) :
    excerpt.markup.toList
      = "<samp class=\"source\">".toList ++ (ofLines excerpt.rows ++ "</samp>".toList) := by
  have hlines : ∀ lines : List Line,
      ofLines (lines.map (·.markup.toList) ++ [excerpt.trailing.markup.toList])
        = (String.join (lines.map fun line => line.markup ++ "\n")).toList
          ++ excerpt.trailing.markup.toList := by
    intro lines
    induction lines with
    | nil => simp [ofLines]
    | cons line lines ih =>
      rw [List.map_cons, List.cons_append, ofLines_cons (by simp), ih]
      simp
  rw [rows, ofLines_cons (by simp), hlines]
  unfold markup
  simp only [String.toList_append, List.append_assoc, List.cons_append]
  rfl

theorem Inline.newline_notMem_rows {excerpt : Excerpt} (h : excerpt.Inline) :
    ∀ row ∈ excerpt.rows, '\n' ∉ row := by
  intro row hmem
  simp only [rows, List.mem_cons, List.mem_append, List.mem_map, List.not_mem_nil,
    or_false] at hmem
  rcases hmem with rfl | ⟨line, hline, rfl⟩ | rfl
  · exact Edge.newline_notMem_markup _
  · exact Line.newline_notMem_markup (h line hline)
  · exact Edge.newline_notMem_markup _

/-- **Nothing of an excerpt is lost in its markup.** -/
theorem Inline.ofMarkup?_markup {excerpt : Excerpt} (h : excerpt.Inline) :
    ofMarkup? excerpt.markup = some excerpt := by
  have hlines : Text.lines (ofLines excerpt.rows) = excerpt.rows :=
    lines_ofLines (by simp [rows]) h.newline_notMem_rows
  rw [ofMarkup?, toList_markup, strip?_append]
  simp only [Option.bind_eq_bind, Option.bind_some, stripEnd?_append, hlines, ofRows?_rows]

end Excerpt

/-! ## The excerpts of a source -/

theorem inline_renderTokens {tokens : List Token} (hplaced : Token.Placed 1 tokens)
    (hsplit : Token.Splittable tokens) (window : Window) :
    (renderTokens tokens window).Inline := by
  intro line hline
  have hrow := (content_of_mem_renderTokens hplaced hsplit hline).2
  exact newline_notMem_of_mem_lines (List.mem_of_getElem? hrow)

/-- **An excerpt can be read off its markup.** No content of an excerpt of a source runs over lines;
where none does, the marks and the number, highlight and content of each line are read back from the
markup, so that excerpts of the same markup are the same. -/
theorem markup_recovers_excerpt :
    (∀ {source : String} {tokens : List Token}, tokensOf source = .ok tokens →
        ∀ window : Window, ∃ excerpt, render source window = .ok excerpt ∧ excerpt.Inline)
      ∧ (∀ excerpt : Excerpt, excerpt.Inline → Excerpt.ofMarkup? excerpt.markup = some excerpt)
      ∧ ∀ excerpt other : Excerpt, excerpt.Inline → other.Inline →
          excerpt.markup = other.markup → excerpt = other := by
  refine ⟨?_, fun excerpt => Excerpt.Inline.ofMarkup?_markup, ?_⟩
  · intro source tokens htokens window
    refine ⟨renderTokens tokens window.normalized, by rw [render, htokens]; rfl, ?_⟩
    exact inline_renderTokens (placed_tokenize htokens)
      (.of_formed fun token => formed_of_mem_tokenize htokens) _
  · intro excerpt other hexcerpt hother hmarkup
    have hsame := hexcerpt.ofMarkup?_markup
    rw [hmarkup, hother.ofMarkup?_markup] at hsame
    exact (Option.some.inj hsame).symm

/-- Two lines of a source below its first, the second of them blank and highlighted. -/
theorem markup_recovers_excerpt_blank :
    ∃ excerpt : Excerpt, render "<?php\n'>';\n\n?>" ((Window.lines 2 3).withFocus 3) = .ok excerpt
      ∧ excerpt.leading = .ellipsis
      ∧ excerpt.lines.map (fun line => (line.number, line.highlighted, line.content == ""))
        = [(2, false, false), (3, true, true)]
      ∧ excerpt.trailing = .ellipsis
      ∧ excerpt.Inline
      ∧ Excerpt.ofMarkup? excerpt.markup = some excerpt
      ∧ ∀ other : Excerpt, other.Inline → other.markup = excerpt.markup → other = excerpt := by
  have hshown : (render "<?php\n'>';\n\n?>" ((Window.lines 2 3).withFocus 3)).toOption.map
      (fun excerpt => (excerpt.leading,
        excerpt.lines.map (fun line => (line.number, line.highlighted, line.content == "")),
        excerpt.trailing))
      = some (.ellipsis, [(2, false, false), (3, true, true)], .ellipsis) := by decide +kernel
  obtain ⟨hsource, hread, hsame⟩ := markup_recovers_excerpt
  cases htokens : tokensOf "<?php\n'>';\n\n?>" with
  | error error => simp [render, htokens, Except.map, Except.toOption] at hshown
  | ok tokens =>
    obtain ⟨excerpt, hrender, hinline⟩ := hsource htokens ((Window.lines 2 3).withFocus 3)
    rw [hrender] at hshown
    simp only [Except.toOption, Option.map_some, Option.some.injEq, Prod.mk.injEq] at hshown
    exact ⟨excerpt, hrender, hshown.1, hshown.2.1, hshown.2.2, hinline, hread excerpt hinline,
      fun other hother => hsame other excerpt hother hinline⟩

end Listing
