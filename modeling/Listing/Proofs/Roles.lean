import Listing.Role

/-!
# How the role of a name is read

`Role.resolve` hands the hints of the tokens after a name to one scan of the tokens before it. Here
the same is said without a scan (`Role.reading`), by rules of which the first that applies decides:

* the name is that of a value;
* the one or two tokens after it tell what it is;
* it is all capitals and no call follows;
* of the tokens before it, whitespace left out, the newest that is not passed over tells what it is.
  Before a call the parts of a qualified name are passed over, elsewhere punctuation that neither
  ends a statement nor stands before the type of a result.

Each table is a list of its rows, and the search of the last rule is `List.find?`.
-/

namespace Listing

namespace Role

/-! ## Tables -/

/-- Names of values. -/
def values : List (String × Role) :=
  [("null", .null), ("true", .bool), ("false", .bool)]

/-- What the kind of the next token says of a name. -/
def followed : List (Kind × Role) :=
  [(.grammar .arrow, .member), (.grammar .nullsafeArrow, .member), (.doubleColon, .class_),
   (.separator, .namespace_), (.variable_, .class_)]

/-- What the kind of the token after next says of a name, if the next is whitespace. -/
def followedAfterSpace : List (Kind × Role) :=
  [(.variable_, .class_), (.op .ellipsis, .class_)]

/-- What the kind of a token before a name says of it, if no call follows. -/
def preceded : List (Kind × Role) :=
  [(.keyword .const, .constant), (.doubleColon, .constant), (.grammar .arrow, .member),
   (.grammar .nullsafeArrow, .member), (.keyword .extends_, .class_),
   (.keyword .implements, .class_), (.keyword .class_, .class_), (.keyword .use, .class_),
   (.separator, .class_)]

/-! ## The tokens after a name -/

/-- The token after next, if the next is whitespace. -/
def afterSpace? : List Token → Option Token
  | next :: more => if next.kind = .whitespace then more.head? else none
  | [] => none

/-- The role that the tokens after a name tell by themselves. -/
def told? (ahead : List Token) : Option Role :=
  (ahead.head?.bind fun next => followed.lookup next.kind).or
    ((afterSpace? ahead).bind fun second => followedAfterSpace.lookup second.kind)

/-- An opening parenthesis is the next token. -/
def callFollows (ahead : List Token) : Bool :=
  ahead.head?.any (·.isPunct '(')

/-- Whitespace and then an opening brace are the next tokens. -/
def blockFollows (ahead : List Token) : Bool :=
  (afterSpace? ahead).any (·.isPunct '\x7b')

/-! ## The tokens before a name -/

/-- The tokens that are not whitespace. -/
def solid (before : List Token) : List Token :=
  before.filter (·.kind != .whitespace)

/-- A part of a qualified name. -/
def isQualifier (token : Token) : Bool :=
  token.kind == .separator || token.kind == .name

/-- The role of a name before a call, by the tokens before it, newest first. -/
def called (earlier : List Token) : Role :=
  match earlier.find? (!isQualifier ·) with
  | some token => if token.kind = .keyword .new then .class_ else .function
  | none => .function

/-- A token that is not passed over where no call follows: it is no punctuation, ends a statement,
or is the colon before the type of a result. -/
def tells (ahead : List Token) (token : Token) : Bool :=
  token.kind != .punct || token.isPunct ';'
    || token.isPunct ':' && (ahead.take 2).any (·.isPunct '\x7b')

/-- The role of a name where no call follows, by the tokens before it, newest first. -/
def stated (ahead earlier : List Token) : Option Role :=
  match earlier.find? (tells ahead) with
  | none => none
  | some token =>
    if token.isPunct ';' then none
    else if token.isPunct ':' then some .classReturn
    else (preceded.lookup token.kind).or (if blockFollows ahead then some .classReturn else none)

/-! ## The reading -/

/-- Not empty, and nothing but capitals and underscores. -/
def IsCapitals (text : String) : Prop :=
  text ≠ "" ∧ ∀ c ∈ text.toList, 'A' ≤ c ∧ c ≤ 'Z' ∨ c = '_'

instance (text : String) : Decidable (IsCapitals text) :=
  have := List.decidableBAll (fun c : Char => 'A' ≤ c ∧ c ≤ 'Z' ∨ c = '_') text.toList
  inferInstanceAs (Decidable (_ ∧ _))

/-- The role of a name: what its text tells, what the tokens after it tell, what its letters tell,
or what the tokens before it tell, in this order. -/
def reading (text : String) (before ahead : List Token) : Option Role :=
  (values.lookup text).or <| (told? ahead).or <|
    if IsCapitals text ∧ callFollows ahead = false then some .constant
    else if callFollows ahead then some (called (solid before))
    else stated ahead (solid before)

/-! ## The parts of the scan -/

theorem ofLiteral?_eq_lookup (text : String) : ofLiteral? text = values.lookup text := by
  unfold ofLiteral?
  split
  · next h => subst h; rfl
  · next hnull =>
    have hnull' : (text == "null") = false := by simpa using hnull
    split
    · next h => rcases h with rfl | rfl <;> rfl
    · next h =>
      rw [not_or] at h
      have htrue : (text == "true") = false := by simpa using h.1
      have hfalse : (text == "false") = false := by simpa using h.2
      simp [values, List.lookup_cons, hnull', htrue, hfalse]

theorem isConstantName_iff {text : String} : isConstantName text = true ↔ IsCapitals text := by
  have hupper : ∀ c : Char, c.isUpper = true ↔ 'A' ≤ c ∧ c ≤ 'Z' := fun _ => decide_eq_true_iff
  simp only [isConstantName, Bool.and_eq_true, Bool.not_eq_true', List.isEmpty_eq_false_iff,
    List.all_eq_true, Bool.or_eq_true, beq_iff_eq, hupper, IsCapitals, ne_eq,
    String.toList_eq_nil_iff]

theorem lookAhead_eq (ahead : List Token) :
    lookAhead ahead = match told? ahead with
      | some role => (some role, {})
      | none => (none, { call := callFollows ahead, block := blockFollows ahead }) := by
  rcases ahead with _ | ⟨⟨kind, text, line⟩, more⟩
  · rfl
  · cases kind with
    | op op => cases op <;> rfl
    | grammar mark =>
      cases mark with
      | whitespace =>
        rcases more with _ | ⟨⟨kind, text, line⟩, more⟩
        · rfl
        · cases kind with
          | op op => cases op <;> rfl
          | var var => cases var <;> rfl
          | _ => rfl
      | _ => rfl
    | var var => cases var <;> rfl
    | _ => rfl

theorem afterKind?_eq_lookup (hints : Hints) (kind : Kind) :
    afterKind? hints kind
      = (preceded.lookup kind).or (if hints.block then some .classReturn else none) := by
  cases kind with
  | op op => cases op <;> rfl
  | grammar mark => cases mark <;> rfl
  | keyword word => cases word <;> rfl
  | _ => rfl

/-- Whitespace does not count. -/
theorem lookBehind_solid (hints : Hints) (ahead before : List Token) :
    lookBehind hints ahead (solid before) = lookBehind hints ahead before := by
  induction before with
  | nil => rfl
  | cons token before ih =>
    by_cases h : token.kind = .whitespace
    · have hsolid : solid (token :: before) = solid before := by simp [solid, h]
      rw [hsolid, ih, lookBehind]
      simp [h, Kind.isWhitespace]
    · have hsolid : solid (token :: before) = token :: solid before := by simp [solid, h]
      rw [hsolid, lookBehind, lookBehind, ih]

theorem isWhitespace_of_mem_solid {before : List Token} {token : Token} (h : token ∈ solid before) :
    token.kind.isWhitespace = false := by
  have hkind := (List.mem_filter.1 h).2
  simpa [Kind.isWhitespace] using hkind

section Earlier

variable {earlier : List Token} (hsolid : ∀ token ∈ earlier, token.kind.isWhitespace = false)

include hsolid in
/-- Before a call the scan stops at the first token that is no part of a qualified name. -/
theorem lookBehind_of_call {hints : Hints} (h : hints.call = true) (ahead : List Token) :
    lookBehind hints ahead earlier = some (called earlier) := by
  induction earlier with
  | nil => simp [lookBehind, h, called]
  | cons token earlier ih =>
    have hnot := hsolid token List.mem_cons_self
    rw [lookBehind, ih fun next hnext => hsolid next (List.mem_cons_of_mem _ hnext)]
    cases hqualifier : isQualifier token with
    | true =>
      have hkind : token.kind = .separator ∨ token.kind = .name := by
        simpa [isQualifier] using hqualifier
      have hpassed : called (token :: earlier) = called earlier := by
        simp [called, hqualifier]
      rw [hpassed]
      rcases hkind with hkind | hkind <;> simp [hkind, h, Kind.isWhitespace]
    | false =>
      have hstop : called (token :: earlier)
          = if token.kind = .keyword .new then .class_ else .function := by
        simp [called, hqualifier]
      rw [hstop]
      by_cases hpunct : token.kind = .punct
      · simp [hpunct, h]
      · rw [if_neg hpunct, if_neg (by simp [hnot]), if_pos h]
        split
        · next hkind => simp [isQualifier, hkind] at hqualifier
        · next hkind => simp [isQualifier, hkind] at hqualifier
        · next hkind => rw [if_pos hkind]
        · next hnew => rw [if_neg hnew]

include hsolid in
/-- Where no call follows the scan stops at the first token that tells something. -/
theorem lookBehind_of_no_call {hints : Hints} (h : hints.call = false) {ahead : List Token}
    (hblock : hints.block = blockFollows ahead) :
    lookBehind hints ahead earlier = stated ahead earlier := by
  induction earlier with
  | nil => simp [lookBehind, h, stated]
  | cons token earlier ih =>
    have hnot := hsolid token List.mem_cons_self
    rw [lookBehind, ih fun next hnext => hsolid next (List.mem_cons_of_mem _ hnext)]
    by_cases hpunct : token.kind = .punct
    · have htells : tells ahead token = (token.isPunct ';'
          || token.isPunct ':' && (ahead.take 2).any (·.isPunct '\x7b')) := by
        simp [tells, hpunct]
      cases hend : token.isPunct ';' with
      | true => simp [hpunct, h, hend, stated, htells]
      | false =>
        cases hcolon : token.isPunct ':' && (ahead.take 2).any (·.isPunct '\x7b') with
        | true =>
          have htype : token.isPunct ':' = true := (Bool.and_eq_true_iff.1 hcolon).1
          rw [hend, hcolon, Bool.or_true] at htells
          simp [hpunct, h, stated, htells, hend, htype]
        | false =>
          rw [hend, hcolon, Bool.or_false] at htells
          simp [hpunct, h, stated, htells]
    · have htells : tells ahead token = true := by simp [tells, hpunct]
      have hplain : ∀ c, token.isPunct c = false := fun c => by simp [Token.isPunct, hpunct]
      simp [hpunct, hnot, h, hplain, stated, htells, afterKind?_eq_lookup, hblock]

end Earlier

/-! ## The role of a name -/

theorem resolve_eq_reading (text : String) (before ahead : List Token) :
    resolve text before ahead = reading text before ahead := by
  unfold resolve reading
  rw [ofLiteral?_eq_lookup, lookAhead_eq]
  cases values.lookup text with
  | some role => rfl
  | none =>
    cases told? ahead with
    | some role => rfl
    | none =>
      have hsolid : ∀ token ∈ solid before, token.kind.isWhitespace = false :=
        fun _ => isWhitespace_of_mem_solid
      simp only [Option.none_or]
      rw [← lookBehind_solid]
      cases hcall : callFollows ahead with
      | true => simp [lookBehind_of_call hsolid]
      | false => simp [lookBehind_of_no_call hsolid, isConstantName_iff]

/-- **The role of a name is read** by the rules in their order, and whitespace before the name makes
no difference to it. -/
theorem resolve_by_rules (text : String) (before ahead : List Token) :
    resolve text before ahead = reading text before ahead
      ∧ ∀ other, solid other = solid before →
        resolve text other ahead = resolve text before ahead := by
  refine ⟨resolve_eq_reading text before ahead, ?_⟩
  intro other h
  rw [resolve_eq_reading, resolve_eq_reading, reading, reading, h]

/-- The type of a result before a block, with a blank before it and without. -/
theorem resolve_by_rules_result :
    let ahead : List Token := [⟨.whitespace, " ", 1⟩, ⟨.punct, "\x7b", 1⟩]
    let close : List Token := [⟨.punct, ":", 1⟩, ⟨.punct, ")", 1⟩]
    solid (⟨.whitespace, " ", 1⟩ :: close) = solid close
      ∧ resolve "Response" close ahead = some .classReturn
      ∧ resolve "Response" (⟨.whitespace, " ", 1⟩ :: close) ahead = some .classReturn := by
  intro ahead close
  have hsolid : solid (⟨.whitespace, " ", 1⟩ :: close) = solid close := by decide
  obtain ⟨hreading, hspace⟩ := resolve_by_rules "Response" close ahead
  have hrole : resolve "Response" close ahead = some .classReturn := by
    rw [hreading]
    decide
  exact ⟨hsolid, hrole, by rw [hspace _ hsolid, hrole]⟩

end Role

end Listing
