import Listing.Lexer.Scan

/-!
# Words

A word is a name or a reserved word, whatever its capitals. What stands before it can take its
meaning away: after a member access, a namespace separator, `function` or `const` every word is a
name, and after `::` every word but `class`. `enum` is reserved only in front of a name, and `yield`
takes a following `from` with it.
-/

namespace Listing.Lexer.Word

open Text

/-- Reserved words, in small letters. -/
def table : List (String × Kind) :=
  [("abstract", .keyword .abstract), ("array", .keyword .array), ("as", .keyword .as),
   ("class", .keyword .class_), ("clone", .keyword .clone), ("const", .keyword .const),
   ("declare", .keyword .declare), ("default", .keyword .default), ("echo", .keyword .echo),
   ("enddeclare", .keyword .endDeclare), ("enum", .keyword .enum),
   ("extends", .keyword .extends_), ("final", .keyword .final), ("fn", .keyword .fn),
   ("function", .keyword .function), ("global", .keyword .global),
   ("implements", .keyword .implements), ("include", .keyword .include_),
   ("include_once", .keyword .includeOnce), ("instanceof", .keyword .instanceOf),
   ("insteadof", .keyword .insteadOf), ("interface", .keyword .interface),
   ("namespace", .keyword .namespace_), ("new", .keyword .new), ("print", .keyword .print),
   ("private", .keyword .private_), ("protected", .keyword .protected_),
   ("public", .keyword .public_), ("readonly", .keyword .readonly),
   ("require", .keyword .require), ("require_once", .keyword .requireOnce),
   ("static", .keyword .static), ("trait", .keyword .trait), ("use", .keyword .use),
   ("var", .keyword .var),
   ("break", .flow .break_), ("case", .flow .case), ("catch", .flow .catch_),
   ("continue", .flow .continue_), ("do", .flow .do_), ("else", .flow .else_),
   ("elseif", .flow .elseIf), ("endfor", .flow .endFor), ("endforeach", .flow .endForeach),
   ("endif", .flow .endIf), ("endswitch", .flow .endSwitch), ("endwhile", .flow .endWhile),
   ("exit", .flow .exit), ("die", .flow .exit), ("finally", .flow .finally_),
   ("for", .flow .for_), ("foreach", .flow .foreach), ("goto", .flow .goto), ("if", .flow .if_),
   ("match", .flow .match_), ("return", .flow .return_), ("switch", .flow .switch),
   ("throw", .flow .throw), ("try", .flow .try_), ("while", .flow .while_),
   ("yield", .flow .yield),
   ("callable", .callable),
   ("and", .op .logicalAnd), ("or", .op .logicalOr), ("xor", .op .logicalXor),
   ("empty", .construct .empty), ("eval", .construct .eval),
   ("__halt_compiler", .construct .haltCompiler), ("isset", .construct .isset),
   ("list", .construct .list), ("unset", .construct .unset),
   ("__class__", .magic .className), ("__dir__", .magic .dir), ("__file__", .magic .file),
   ("__function__", .magic .functionName), ("__line__", .magic .line),
   ("__method__", .magic .methodName), ("__namespace__", .magic .namespaceName),
   ("__trait__", .magic .traitName)]

/-- The kind for which a word is reserved. -/
def reserved? (word : List Char) : Option Kind :=
  table.lookup (String.ofList (lower word))

/-- After this kind every word is a name. -/
def freesWords (kind : Kind) : Bool :=
  kind.isMemberAccess || kind == .separator || kind == .keyword .function
    || kind == .keyword .const

/-- The kind of a word, given the last kind before it that was not whitespace or comment. -/
def kindAfter (previous : Option Kind) (word : List Char) : Kind :=
  if previous.any freesWords then .name
  else if previous = some .doubleColon ∧ lower word ≠ "class".toList then .name
  else (reserved? word).getD .name

/-- The gap and the `from` that make `yield from` of a `yield`. -/
def from? (cs : List Char) : Option (List Char × List Char) :=
  if headIs isBlank cs then
    match stripAnyCase? "from".toList (cs.dropWhile isBlank) with
    | some (word, rest) =>
      if headIs isNameChar rest then none else some (cs.takeWhile isBlank ++ word, rest)
    | none => none
  else none

/-- A gap and then a name are ahead. -/
def namedAhead (cs : List Char) : Bool :=
  headIs isSpace cs && headIs isNameStart (cs.dropWhile isSpace)

/-- Names and reserved words. -/
def rule : Rule := fun previous cs =>
  if headIs isNameStart cs then
    let word := cs.takeWhile isNameChar
    let rest := cs.dropWhile isNameChar
    match kindAfter previous word with
    | .flow .yield =>
      match from? rest with
      | some (tail, rest) => some (.ok (.one (.flow .yieldFrom) (word ++ tail) rest))
      | none => some (.ok (.one (.flow .yield) word rest))
    | .keyword .enum =>
      some (.ok (.one (if namedAhead rest then .keyword .enum else .name) word rest))
    | kind => some (.ok (.one kind word rest))
  else none

/-- Only `yield` and `enum` are told by what follows them. -/
theorem rule_of_kindAfter {previous : Option Kind} {cs : List Char} {kind : Kind}
    (hs : headIs isNameStart cs = true)
    (hkind : kindAfter previous (cs.takeWhile isNameChar) = kind) (hyield : kind ≠ .flow .yield)
    (henum : kind ≠ .keyword .enum) :
    rule previous cs
      = some (.ok (.one kind (cs.takeWhile isNameChar) (cs.dropWhile isNameChar))) := by
  rw [rule, if_pos hs]
  dsimp only
  rw [hkind]
  split
  · exact absurd rfl hyield
  · exact absurd rfl henum
  · rfl

/-! ## Nothing is lost -/

theorem word_ne_nil {cs : List Char} (h : headIs isNameStart cs = true) :
    cs.takeWhile isNameChar ≠ [] := by
  cases cs with
  | nil => simp at h
  | cons c cs => simp [isNameChar_of_isNameStart h]

theorem from?_append {cs tail rest : List Char} (h : from? cs = some (tail, rest)) :
    tail ++ rest = cs := by
  unfold from? at h
  split at h
  · split at h
    · next word after e =>
      split at h
      · simp at h
      · simp only [Option.some.injEq, Prod.mk.injEq] at h
        obtain ⟨rfl, rfl⟩ := h
        simp [(stripAnyCase?_eq_some e).1]
    · simp at h
  · simp at h

theorem rule_conserves : Rule.Conserves rule := by
  intro previous cs scan h
  unfold rule at h
  split at h
  · next hs =>
    have hne := word_ne_nil hs
    have happ : cs.takeWhile isNameChar ++ cs.dropWhile isNameChar = cs :=
      List.takeWhile_append_dropWhile
    dsimp only at h
    split at h
    · split at h
      · next tail rest e =>
        simp only [Option.some.injEq, Except.ok.injEq] at h
        subst h
        refine Covers.one (by simp [hne]) ?_
        rw [Scan.one_rest]
        rw [List.append_assoc, from?_append e, happ]
      · simp only [Option.some.injEq, Except.ok.injEq] at h
        subst h
        exact Covers.one hne happ
    · simp only [Option.some.injEq, Except.ok.injEq] at h
      subst h
      exact Covers.one hne happ
    · simp only [Option.some.injEq, Except.ok.injEq] at h
      subst h
      exact Covers.one hne happ
  · simp at h

end Listing.Lexer.Word
