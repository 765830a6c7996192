import Mathlib.Algebra.Ring.Int.Defs
import Listing.Proofs.Joined

/-!
# Braces in strings

Code in a string stands in braces, and there may be braces in that code, and strings with code of
their own. The reader finds the brace that ends a hole by a count of its own for every hole. Taken
together these counts are one: how many braces are open from the outermost hole on
(`Context.height`). Outside of all holes braces are not counted, and nobody has to close them.

The lexemes of a source are those of a machine that keeps the one count (`Counts`), and this is all
that is needed of the reader (`Context.step_counts`, `Reads.counts`). Below a mark that opens a hole
the machine comes back to where it was, and it does so first at a brace
(`Counts.exists_closing`).
-/

namespace Listing

open Text

/-! ## Balance -/

section Balance

variable {α : Type} {weight : α → Int} {xs ys : List α}

/-- Every front part of the list weighs nothing or more, and the whole list nothing. -/
structure Balanced (weight : α → Int) (xs : List α) : Prop where
  front : ∀ front, front <+: xs → 0 ≤ (front.map weight).sum
  total : (xs.map weight).sum = 0

/-- From a level the list comes down to the ground, and never below it on the way. -/
inductive Settles (weight : α → Int) : Int → List α → Prop
  | nil : Settles weight 0 []
  | cons {level : Int} {x : α} {xs : List α} : 0 ≤ level → Settles weight (level + weight x) xs →
      Settles weight level (x :: xs)

theorem Settles.front_nonneg {level : Int} (h : Settles weight level xs) :
    ∀ front, front <+: xs → 0 ≤ level + (front.map weight).sum := by
  induction h with
  | nil =>
    intro front hfront
    rw [List.prefix_nil.1 hfront]
    exact Int.le_refl 0
  | cons hlevel _ ih =>
    intro front hfront
    rcases List.prefix_cons_iff.1 hfront with rfl | ⟨more, rfl, hmore⟩
    · simpa using hlevel
    · simpa [Int.add_assoc] using ih more hmore

theorem Settles.total {level : Int} (h : Settles weight level xs) :
    level + (xs.map weight).sum = 0 := by
  induction h with
  | nil => rfl
  | cons _ _ ih => simpa [Int.add_assoc] using ih

theorem Settles.balanced (h : Settles weight 0 xs) : Balanced weight xs :=
  ⟨fun front hfront => by simpa using h.front_nonneg front hfront, by simpa using h.total⟩

end Balance

/-! ## The machine -/

/-- What a lexeme does to the count of open braces. -/
def Lexeme.braces (lexeme : Lexeme) : Int :=
  if lexeme.kind.opensHole || lexeme.isPunct '\x7b' then 1
  else if lexeme.isPunct '\x7d' then -1
  else 0

namespace Lexeme

variable {lexeme : Lexeme}

theorem braces_of_opensHole (h : lexeme.kind.opensHole = true) : lexeme.braces = 1 := by
  rw [braces, h, Bool.true_or, if_pos rfl]

theorem opensHole_of_braces (h : lexeme.braces = 0) : lexeme.kind.opensHole = false := by
  rw [← Bool.not_eq_true]
  intro hopen
  rw [braces_of_opensHole hopen] at h
  cases h

theorem ne_closeTag_of_isPlain (h : lexeme.kind.isPlain = true) : lexeme.kind ≠ .tag .close := by
  intro htag
  rw [htag] at h
  cases h

theorem Neutral.braces (h : lexeme.Neutral) : lexeme.braces = 0 := by
  rw [Lexeme.braces, Kind.opensHole_of_isPlain h.isPlain, h.not_open, h.not_close]
  rfl

/-- The lexeme may stand in a hole and leaves the count as it is. -/
structure Uncounted (lexeme : Lexeme) : Prop where
  braces : lexeme.braces = 0
  not_tag : lexeme.kind ≠ .tag .close

theorem Neutral.uncounted (h : lexeme.Neutral) : lexeme.Uncounted :=
  ⟨h.braces, ne_closeTag_of_isPlain h.isPlain⟩

theorem Uncounted.startHeredoc (text : List Char) : Uncounted ⟨.grammar .startHeredoc, text⟩ :=
  ⟨rfl, nofun⟩

theorem Uncounted.endHeredoc (text : List Char) : Uncounted ⟨.grammar .endHeredoc, text⟩ :=
  ⟨rfl, nofun⟩

theorem braces_cases (lexeme : Lexeme) :
    0 ≤ lexeme.braces ∨ lexeme.braces = -1 ∧ lexeme.isPunct '\x7d' = true := by
  rw [Lexeme.braces]
  split
  · exact .inl (by decide)
  · split
    · next hclose => exact .inr ⟨rfl, hclose⟩
    · exact .inl (by decide)

end Lexeme

/-- The runs of lexemes from a count of open braces on to the end, where no hole is open. Braces
count from the outermost hole on. There is no closing tag in a hole. -/
inductive Counts : Nat → List Lexeme → Prop
  | done : Counts 0 []
  | outside {lexeme : Lexeme} {after : List Lexeme} : lexeme.kind.opensHole = false →
      Counts 0 after → Counts 0 (lexeme :: after)
  | opening {lexeme : Lexeme} {after : List Lexeme} : lexeme.kind.opensHole = true →
      Counts 1 after → Counts 0 (lexeme :: after)
  | inside {n m : Nat} {lexeme : Lexeme} {after : List Lexeme} : lexeme.kind ≠ .tag .close →
      (m : Int) = (n + 1 : Nat) + lexeme.braces → Counts m after → Counts (n + 1) (lexeme :: after)

namespace Counts

variable {n : Nat} {lexeme : Lexeme} {lexemes after : List Lexeme}

/-- Behind a mark that opens a hole there is a hole open. -/
theorem exists_of_opensHole (h : lexeme.kind.opensHole = true) {before : List Lexeme}
    (hc : Counts n (before ++ lexeme :: after)) : ∃ m, Counts (m + 1) after := by
  induction before generalizing n with
  | nil =>
    cases hc with
    | outside hnot =>
      rw [h] at hnot
      cases hnot
    | opening _ hafter => exact ⟨0, hafter⟩
    | @inside n m _ _ _ hm hafter =>
      rw [Lexeme.braces_of_opensHole h] at hm
      obtain rfl : m = n + 1 + 1 := by omega
      exact ⟨n + 1, hafter⟩
  | cons first before ih =>
    cases hc with
    | outside _ hafter => exact ih hafter
    | opening _ hafter => exact ih hafter
    | inside _ _ hafter => exact ih hafter

/-- Of `base + level + 1` open braces the one that is `level` from the top is closed: from `level`
the braces settle, and the next one closes it. -/
theorem exists_closing (base level : Nat) (h : Counts n lexemes) (hn : n = base + level + 1) :
    ∃ inside brace rest, lexemes = inside ++ brace :: rest ∧ brace.isPunct '\x7d' = true
      ∧ Settles Lexeme.braces level inside ∧ ∀ lexeme ∈ inside, lexeme.kind ≠ .tag .close := by
  induction h generalizing level with
  | done => omega
  | outside => omega
  | opening => omega
  | @inside n m lexeme after hkind hm _ ih =>
    by_cases hground : (level : Int) + lexeme.braces < 0
    · rcases lexeme.braces_cases with hup | ⟨hdown, hbrace⟩
      · omega
      · obtain rfl : level = 0 := by omega
        exact ⟨[], lexeme, after, rfl, hbrace, .nil, nofun⟩
    · obtain ⟨next, hnext⟩ := Int.eq_ofNat_of_zero_le (Int.not_lt.1 hground)
      obtain ⟨inside, brace, rest, rfl, hbrace, hsettles, htags⟩ := ih next (by omega)
      refine ⟨lexeme :: inside, brace, rest, rfl, hbrace, .cons (by omega) (hnext ▸ hsettles), ?_⟩
      simpa [hkind] using htags

theorem all_outside (h : ∀ lexeme ∈ lexemes, lexeme.kind.opensHole = false) (hc : Counts 0 after) :
    Counts 0 (lexemes ++ after) := by
  induction lexemes with
  | nil => exact hc
  | cons lexeme lexemes ih =>
    rw [List.forall_mem_cons] at h
    exact .outside h.1 (ih h.2)

theorem all_uncounted (h : ∀ lexeme ∈ lexemes, lexeme.Uncounted) (hc : Counts n after) :
    Counts n (lexemes ++ after) := by
  induction lexemes with
  | nil => exact hc
  | cons lexeme lexemes ih =>
    rw [List.forall_mem_cons] at h
    have hbraces := h.1.braces
    cases n with
    | zero => exact .outside (Lexeme.opensHole_of_braces hbraces) (ih h.2)
    | succ n => exact .inside h.1.not_tag (by omega) (ih h.2)

theorem hole (h : lexeme.kind.opensHole = true) (hc : Counts (n + 1) after) :
    Counts n (lexeme :: after) := by
  cases n with
  | zero => exact .opening h hc
  | succ n =>
    refine .inside ?_ (by rw [Lexeme.braces_of_opensHole h]; rfl) hc
    intro hkind
    rw [hkind] at h
    cases h

end Counts

namespace Lexer

/-! ## What one step does -/

theorem Heredoc.rule_uncounted {previous : Option Kind} {cs : List Char} {scan : Scan}
    (h : rule previous cs = some (.ok scan)) : ∀ lexeme ∈ scan.lexemes, lexeme.Uncounted := by
  obtain ⟨header, -, rfl | ⟨body, line, closing, -, -, rfl⟩⟩ := rule_cases h
  · simpa using Lexeme.Uncounted.startHeredoc header.text
  · intro lexeme hmem
    simp only [List.cons_append, List.mem_cons, List.mem_append, List.not_mem_nil,
      or_false] at hmem
    rcases hmem with rfl | hmem | rfl
    · exact .startHeredoc _
    · exact (neutral_of_mem_literal body lexeme hmem).uncounted
    · exact .endHeredoc _

theorem Code.scan_not_opensHole {previous : Option Kind} {cs : List Char} {found : Scan}
    (hne : cs ≠ []) (h : scan previous cs = .ok found) :
    ∀ lexeme ∈ found.lexemes, lexeme.kind.opensHole = false := by
  intro lexeme hmem
  rcases scan_cases hne h with hplain | hheredoc | ⟨-, text, htag⟩
  · exact Kind.opensHole_of_isPlain (hplain.isPlain lexeme hmem)
  · exact Lexeme.opensHole_of_braces (Heredoc.rule_uncounted hheredoc lexeme hmem).braces
  · rw [htag, List.mem_singleton] at hmem
    subst hmem
    rfl

namespace Context

/-- How many braces are open, from the outermost hole on. -/
def height : Context → Nat
  | .html | .code | .halting | .data => 0
  | .body _ _ _ outer => outer.height
  | .hole depth _ outer => outer.height + (depth + 1)

theorem height_of_finish {context : Context} (h : context.finish = .ok ()) :
    context.height = 0 := by
  cases context with
  | html | code | halting | data => rfl
  | body | hole => cases h

/-- A lexeme in a hole does to the count what it does to the context. -/
theorem height_afterLexeme (depth opened : Nat) (outer : Context) {last : Lexeme}
    (h : last.kind.opensHole = false) :
    (((hole depth opened outer).afterLexeme last).height : Int)
      = (hole depth opened outer).height + last.braces := by
  simp only [afterLexeme, Lexeme.braces, h, Bool.false_or]
  split
  · simp only [height]
    omega
  · split
    · cases depth with
      | zero =>
        simp only [height]
        omega
      | succ depth =>
        simp only [height]
        omega
    · rw [Int.add_zero]

/-- The context behind lexemes that are not counted. -/
theorem afterScan_of_uncounted {depth opened line : Nat} {outer next : Context} {scan : Scan}
    (h : ∀ lexeme ∈ scan.lexemes, lexeme.Uncounted) (hturn : scan.turn ≠ .leave)
    (hnext : (hole depth opened outer).afterScan line scan = .ok next) :
    next.height = (hole depth opened outer).height := by
  obtain ⟨hleave, -⟩ | ⟨closer, -, rfl⟩ | ⟨-, last, hlast, rfl⟩ | ⟨-, rfl⟩ :=
    afterScan_cases hnext
  · exact absurd hleave hturn
  · rfl
  · obtain ⟨hbraces, -⟩ := h last (List.mem_of_getLast? hlast)
    have hheight := height_afterLexeme depth opened outer (Lexeme.opensHole_of_braces hbraces)
    omega
  · rfl

section Steps

variable {line : Nat} {previous : Option Kind} {cs : List Char} {next : Step} {after : List Lexeme}

theorem hole_counts {depth opened : Nat} {outer : Context} (hne : cs ≠ [])
    (h : (hole depth opened outer).stepCode line previous cs = .ok next)
    (hc : Counts next.context.height after) :
    Counts (hole depth opened outer).height (next.lexemes ++ after) := by
  obtain ⟨scan, context, hscan, hnext, rfl⟩ := exists_scan_of_stepCode h
  have huncounted : (∀ lexeme ∈ scan.lexemes, lexeme.Uncounted) → scan.turn ≠ .leave →
      Counts (hole depth opened outer).height (scan.lexemes ++ after) := by
    intro hall hturn
    rw [afterScan_of_uncounted hall hturn hnext] at hc
    exact hc.all_uncounted hall
  rcases Code.scan_cases hne hscan with hplain | hheredoc | ⟨hleave, -⟩
  · have hturn := hplain.inside.turn
    cases hplain with
    | one hkind =>
      cases hnext
      exact .inside (Lexeme.ne_closeTag_of_isPlain hkind)
        (height_afterLexeme depth opened outer (Kind.opensHole_of_isPlain hkind)) hc
    | string hall => exact huncounted (fun lexeme hmem => (hall lexeme hmem).uncounted) hturn
    | enter hall => exact huncounted (fun lexeme hmem => (hall lexeme hmem).uncounted) hturn
  · have hturn := (Heredoc.rule_staysInside _ _ _ hheredoc).turn
    exact huncounted (Heredoc.rule_uncounted hheredoc) hturn
  · rw [afterScan, hleave] at hnext
    cases hnext

/-- Around the program only text and opening tags are read. -/
theorem stepHtml_outside (cs : List Char) :
    ∀ lexeme ∈ (stepHtml cs).lexemes, lexeme.kind.isInside = false := by
  intro lexeme hmem
  unfold stepHtml at hmem
  split at hmem
  · next tag rest htag =>
    rcases List.mem_append.1 hmem with hmem | hmem
    · rw [eq_of_mem_ofText hmem]
      rfl
    · rw [List.mem_singleton.1 hmem]
      rcases Markup.openTag?_kind htag with hkind | hkind <;> rw [hkind] <;> rfl
  · rw [List.mem_singleton.1 hmem]
    rfl

/-- Outside of all holes no lexeme is counted. -/
theorem height_afterScan {context next : Context} {scan : Scan}
    (hcontext : context = code ∨ context = halting)
    (h : context.afterScan line scan = .ok next) : next.height = 0 := by
  have hzero : context.height = 0 := by rcases hcontext with rfl | rfl <;> rfl
  obtain ⟨-, htag⟩ | ⟨closer, -, rfl⟩ | ⟨-, last, -, rfl⟩ | ⟨-, rfl⟩ := afterScan_cases h
  · rcases hcontext with rfl | rfl <;> cases htag <;> rfl
  · exact hzero
  · rcases hcontext with rfl | rfl <;> simp only [afterLexeme] <;> split <;> rfl
  · exact hzero

theorem code_counts {context : Context} (hcontext : context = code ∨ context = halting)
    (hne : cs ≠ []) (h : context.stepCode line previous cs = .ok next)
    (hc : Counts next.context.height after) :
    Counts context.height (next.lexemes ++ after) := by
  obtain ⟨scan, context', hscan, hnext, rfl⟩ := exists_scan_of_stepCode h
  have hzero : context.height = 0 := by rcases hcontext with rfl | rfl <;> rfl
  rw [height_afterScan hcontext hnext] at hc
  rw [hzero]
  exact .all_outside (Code.scan_not_opensHole hne hscan) hc

theorem html_counts (hc : Counts (stepHtml cs).context.height after) :
    Counts 0 ((stepHtml cs).lexemes ++ after) := by
  have hzero : (stepHtml cs).context.height = 0 := by
    unfold stepHtml
    split <;> rfl
  rw [hzero] at hc
  refine .all_outside (fun lexeme hmem => ?_) hc
  rw [← Bool.not_eq_true]
  intro hopen
  have houtside := stepHtml_outside cs lexeme hmem
  rw [Kind.isInside_of_opensHole hopen] at houtside
  cases houtside

theorem body_counts {closer : Closer} {opened : Nat} {fresh : Bool} {outer : Context}
    (h : stepBody closer opened fresh outer line cs = .ok next)
    (hc : Counts next.context.height after) :
    Counts (body closer opened fresh outer).height (next.lexemes ++ after) := by
  obtain ⟨text, event, hseek, rfl⟩ := exists_seek_of_stepBody h
  dsimp only
  rw [List.append_assoc]
  refine .all_uncounted
    (fun lexeme hmem => (neutral_of_mem_literal text lexeme hmem).uncounted) ?_
  cases event with
  | close lexemes rest =>
    refine hc.all_uncounted ?_
    obtain ⟨quote, rfl, hquote, -⟩ | ⟨label, closing, -, rfl⟩ := Body.close_lexemes hseek
    · simpa [Body.Event.lexemes] using hquote.uncounted
    · simpa [Body.Event.lexemes] using Lexeme.Uncounted.endHeredoc closing
  | splice lexemes rest =>
    exact hc.all_uncounted fun lexeme hmem => (Body.splice_neutral hseek lexeme hmem).uncounted
  | hole lexemes rest =>
    obtain ⟨opener, name, rfl, hopener, hname⟩ := Body.hole_lexemes hseek
    exact .hole hopener (hc.all_uncounted fun lexeme hmem => (hname lexeme hmem).uncounted)

/-- What one step keeps: whatever the machine does behind its lexemes from the next context on, it
does with them from the context before. -/
theorem step_counts {context : Context} (hne : cs ≠ [])
    (h : context.step line previous cs = .ok next) (hc : Counts next.context.height after) :
    Counts context.height (next.lexemes ++ after) := by
  cases context with
  | html =>
    cases h
    exact html_counts hc
  | data =>
    cases h
    exact .outside rfl hc
  | code => exact code_counts (.inl rfl) hne h hc
  | halting => exact code_counts (.inr rfl) hne h hc
  | hole => exact hole_counts hne h hc
  | body => exact body_counts h hc

end Steps

end Context

/-- What a whole reading keeps. -/
theorem Reads.counts {state : State} {lexemes : List Lexeme} (h : Reads state lexemes) :
    Counts state.context.height lexemes := by
  induction h with
  | done _ hfinish =>
    rw [Context.height_of_finish hfinish]
    exact .done
  | step hne hstep _ ih => exact Context.step_counts hne hstep ih

end Lexer

/-- **The code in a string is balanced**: each mark that opens a hole has a closing brace behind it,
the lexemes between the two are balanced in their braces, and the program is not left there. -/
theorem tokenize_holes_balanced {source : String} {tokens : List Token}
    (h : tokenize source = .ok tokens) {before after : List Token} {opener : Token}
    (htokens : tokens = before ++ opener :: after) (hopener : opener.kind.opensHole = true) :
    ∃ inside brace rest, after = inside ++ brace :: rest ∧ brace.isPunct '\x7d' = true
      ∧ Balanced Lexeme.braces (inside.map Token.lexeme)
      ∧ ∀ token ∈ inside, token.kind ≠ .tag .close := by
  obtain ⟨lexemes, hreads, rfl⟩ := Lexer.reads_of_tokenize h
  have hcounts := hreads.counts
  rw [← Token.map_lexeme_place 1 lexemes, htokens, List.map_append, List.map_cons] at hcounts
  obtain ⟨n, hafter⟩ := hcounts.exists_of_opensHole hopener
  obtain ⟨inside, brace, rest, hsplit, hbrace, hsettles, htags⟩ :=
    hafter.exists_closing n 0 rfl
  obtain ⟨inside, more, rfl, rfl, hmore⟩ := List.map_eq_append_iff.1 hsplit
  obtain ⟨brace, rest, rfl, rfl, rfl⟩ := List.map_eq_cons_iff.1 hmore
  refine ⟨inside, brace, rest, rfl, hbrace, hsettles.balanced, ?_⟩
  exact fun token hmem => htags _ (List.mem_map_of_mem hmem)

/-- A block in a hole, and in it a command with a hole of its own. -/
theorem tokenize_holes_balanced_nested :
    ∃ before after, tokenize "<?php \"\x7b$f(fn()\x7b`$\x7bx\x7d`;\x7d)\x7d\";"
        = .ok (before ++ ⟨.grammar .curlyOpen, "\x7b", 1⟩ :: after)
      ∧ ∃ inside brace rest, after = inside ++ brace :: rest ∧ brace.isPunct '\x7d' = true
        ∧ Balanced Lexeme.braces (inside.map Token.lexeme)
        ∧ ∀ token ∈ inside, token.kind ≠ .tag .close := by
  have h : (tokenize "<?php \"\x7b$f(fn()\x7b`$\x7bx\x7d`;\x7d)\x7d\";").toOption = some
      ([⟨.tag .open_, "<?php ", 1⟩, ⟨.punct, "\"", 1⟩] ++ ⟨.grammar .curlyOpen, "\x7b", 1⟩ ::
        [⟨.variable_, "$f", 1⟩, ⟨.punct, "(", 1⟩, ⟨.keyword .fn, "fn", 1⟩, ⟨.punct, "(", 1⟩,
          ⟨.punct, ")", 1⟩, ⟨.punct, "\x7b", 1⟩, ⟨.punct, "`", 1⟩,
          ⟨.grammar .dollarCurlyOpen, "$\x7b", 1⟩, ⟨.var .braced, "x", 1⟩, ⟨.punct, "\x7d", 1⟩,
          ⟨.punct, "`", 1⟩, ⟨.punct, ";", 1⟩, ⟨.punct, "\x7d", 1⟩, ⟨.punct, ")", 1⟩,
          ⟨.punct, "\x7d", 1⟩, ⟨.punct, "\"", 1⟩, ⟨.punct, ";", 1⟩]) := by decide +kernel
  have h := Lexer.tokenize_of_toOption h
  exact ⟨_, _, h, tokenize_holes_balanced h rfl rfl⟩

end Listing
