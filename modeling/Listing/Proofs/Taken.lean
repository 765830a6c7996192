import Listing.Proofs.Shown
import Mathlib.Logic.Function.Iterate

/-!
# How a walk ends

A walk is called for one piece after the other. Each call takes tokens off the front of the list
until one of them is in the window, and puts back what a cut has left of it; `Walk.taken` are the
tokens that are taken, shown or not, until a call returns nothing.

A cut leaves a newline less on the list, except on the last line of the window: there what is left
keeps its newlines, and may be the whole text of the token. But then it stands below the window, and
the call that takes it is the last to take anything (`taken_back`). So on any list, whatever the
kinds and lines of its tokens, no more are taken than it has tokens and newlines
(`length_taken_le`).
-/

namespace Listing

namespace Walk

/-! ## Calls -/

/-- The walk after a number of calls for the next piece. -/
def afterCalls (walk : Walk) (calls : Nat) : Walk :=
  (fun walk => walk.next?.2)^[calls] walk

theorem afterCalls_succ (walk : Walk) (calls : Nat) :
    walk.afterCalls (calls + 1) = walk.next?.2.afterCalls calls :=
  Function.iterate_succ_apply ..

theorem next?_of_finished {walk : Walk} (h : walk.finished = true) : walk.next? = (none, walk) := by
  rw [next?, if_pos h]

theorem afterCalls_of_finished {walk : Walk} (h : walk.finished = true) (calls : Nat) :
    walk.afterCalls calls = walk :=
  Function.iterate_fixed (congrArg Prod.snd (next?_of_finished h)) calls

theorem finished_of_next?_none {walk : Walk} (h : walk.next?.1 = none) :
    walk.next?.2.finished = true := by
  fun_induction next? walk with
  | case1 walk hf => exact hf
  | case2 => rfl
  | case3 => rfl
  | case4 walk hf token rest hp hpast piece hahead ih => exact ih h
  | case5 => cases h

theorem views_of_none {walk : Walk} (h : walk.next?.1 = none) : walk.views = ([], walk.next?.2) := by
  rw [views]
  split
  · next hnext => rw [hnext]
  · next hnext =>
    rw [hnext] at h
    cases h

theorem views_of_some {walk : Walk} {piece : Token} (h : walk.next?.1 = some piece) :
    walk.views = (⟨piece, walk.next?.2.history, walk.next?.2.pending⟩ :: walk.next?.2.views.1,
      walk.next?.2.views.2) := by
  rw [views]
  split
  · next hnext =>
    rw [hnext] at h
    cases h
  · next hnext =>
    rw [hnext] at h ⊢
    cases h
    rfl

/-- The calls return the pieces one after the other, and nothing after the last. -/
theorem next?_afterCalls (walk : Walk) (calls : Nat) :
    (walk.afterCalls calls).next?.1 = walk.pieces[calls]? := by
  induction calls generalizing walk with
  | zero =>
    change walk.next?.1 = walk.pieces[0]?
    cases h : walk.next?.1 with
    | none => simp [pieces, views_of_none h]
    | some piece => simp [pieces, views_of_some h]
  | succ calls ih =>
    rw [afterCalls_succ, ih]
    cases h : walk.next?.1 with
    | none =>
      have hfin := finished_of_next?_none h
      have hnone : walk.next?.2.next?.1 = none := by rw [next?_of_finished hfin]
      simp [pieces, views_of_none h, views_of_none hnone]
    | some piece => simp [pieces, views_of_some h]

/-- From the first call that returns nothing on, the walk stays as it is. -/
theorem afterCalls_of_lt {walk : Walk} {calls : Nat} (h : walk.pieces.length < calls) :
    walk.afterCalls calls = walk.views.2 := by
  induction calls generalizing walk with
  | zero => cases h
  | succ calls ih =>
    rw [afterCalls_succ]
    cases hnext : walk.next?.1 with
    | none => rw [afterCalls_of_finished (finished_of_next?_none hnext), views_of_none hnext]
    | some piece =>
      have hmore : walk.pieces = piece :: walk.next?.2.pieces := by
        simp [pieces, views_of_some hnext]
      rw [hmore, List.length_cons] at h
      rw [ih (Nat.lt_of_succ_lt_succ h), views_of_some hnext]

/-! ## What a cut leaves -/

/-- What a cut leaves of a token stands one line further down. It has a newline less than the token,
or the token stands on the last line and the newline has gone with what is left. -/
theorem cut_back_cases (window : Window) (token : Token) :
    (cut window token).2 = []
      ∨ ∃ back, (cut window token).2 = [back] ∧ back.line = token.line + 1
        ∧ (window.isAtEnd token.line = false
            ∧ newlines token.text.toList = newlines back.text.toList + 1
          ∨ window.isAtEnd token.line = true ∧ ∃ below, back.text.toList = '\n' :: below
            ∧ newlines token.text.toList = newlines below + 1) := by
  by_cases hmem : '\n' ∈ token.text.toList
  · cases hcuts : window.isActive && token.kind.isSplittable with
    | false => exact .inl (by simp [cut, hcuts])
    | true =>
      obtain ⟨hactive, hkind⟩ := Bool.and_eq_true_iff.1 hcuts
      obtain ⟨row, below, ht, hr⟩ := List.eq_append_cons_of_mem hmem
      have hcount : newlines token.text.toList = newlines below + 1 := by
        rw [ht, newlines_append, newlines_eq_zero.2 hr, newlines_cons_newline, Nat.zero_add]
      rw [cut_of_newline hactive hkind ht hr]
      cases hend : window.isAtEnd token.line with
      | true => exact .inr ⟨_, rfl, rfl, .inr ⟨rfl, below, String.toList_ofList, hcount⟩⟩
      | false =>
        cases below with
        | nil => exact .inl rfl
        | cons c below =>
          refine .inr ⟨_, rfl, rfl, .inl ⟨rfl, ?_⟩⟩
          rw [hcount, Token.remainder, String.toList_ofList]
  · exact .inl (by rw [cut_of_inline window hmem])

/-- One token at most is put back, in front of the list. -/
theorem tail_back_suffix (window : Window) (token : Token) (rest : List Token) :
    ((cut window token).2 ++ rest).tail <:+ rest := by
  rcases cut_back_cases window token with hnil | ⟨back, hcut, -⟩
  · simp [hnil, List.tail_suffix]
  · simp [hcut]

/-! ## What is taken -/

/-- The tokens that a walk takes off the front of its list until it is finished, shown or not. -/
def taken (walk : Walk) : List Token :=
  if walk.finished then []
  else
    match _h : walk.pending with
    | [] => []
    | token :: rest =>
      if _hpast : walk.window.isPast token.line then [token]
      else token :: taken (walk.past token ((cut walk.window token).2 ++ rest))
termination_by weight walk.window walk.pending
decreasing_by
  have := weight_cut_lt (Bool.eq_false_iff.2 _hpast)
  simp only [past, _h, weight_append, weight_cons]
  omega

theorem taken_of_finished {walk : Walk} (h : walk.finished = true) : walk.taken = [] := by
  rw [taken, if_pos h]

theorem taken_of_nil {walk : Walk} (h : walk.pending = []) : walk.taken = [] := by
  rw [taken]
  split
  · rfl
  · split
    · rfl
    · next hp =>
      rw [h] at hp
      cases hp

theorem taken_of_isPast {walk : Walk} (hf : walk.finished = false) {token : Token}
    {rest : List Token} (h : walk.pending = token :: rest)
    (hpast : walk.window.isPast token.line = true) : walk.taken = [token] := by
  rw [taken, if_neg (by simp [hf])]
  split
  · next hp =>
    rw [h] at hp
    cases hp
  · next hp =>
    rw [h] at hp
    cases hp
    rw [dif_pos hpast]

theorem taken_of_cut {walk : Walk} (hf : walk.finished = false) {token : Token}
    {rest : List Token} (h : walk.pending = token :: rest)
    (hpast : walk.window.isPast token.line = false) :
    walk.taken = token :: (walk.past token ((cut walk.window token).2 ++ rest)).taken := by
  rw [taken, if_neg (by simp [hf])]
  split
  · next hp =>
    rw [h] at hp
    cases hp
  · next hp =>
    rw [h] at hp
    cases hp
    rw [dif_neg (by simp [hpast])]

/-- What is left of a token that is cut on the last line is taken by a call that then ends. -/
theorem taken_of_isAtEnd {walk : Walk} (hf : walk.finished = false) {token back : Token}
    {rest : List Token} (hcut : (cut walk.window token).2 = [back])
    (hline : back.line = token.line + 1) (hend : walk.window.isAtEnd token.line = true) :
    (walk.past token ((cut walk.window token).2 ++ rest)).taken = [back] := by
  have hpast : walk.window.isPast back.line = true := by rw [hline, Window.isPast_succ_eq, hend]
  have hfin : (walk.past token ((cut walk.window token).2 ++ rest)).finished = false := hf
  exact taken_of_isPast hfin (by rw [pending_past, hcut, List.singleton_append]) hpast

/-- What is left of a token that is cut on the last line keeps its newline, and is the last that is
taken, so that it is not cut again. -/
theorem taken_back {walk : Walk} {before more : List Token} {token back : Token}
    (h : walk.taken = before ++ token :: more) (hlast : walk.window.last = some token.line)
    (hback : back ∈ (cut walk.window token).2) :
    back.text.toList.head? = some '\n' ∧ more = [back] := by
  have hend : walk.window.isAtEnd token.line = true := by simp [Window.isAtEnd, hlast]
  fun_induction taken walk generalizing before with
  | case1 => simp at h
  | case2 => simp at h
  | case3 walk hf front rest hp hpast =>
    -- a token below the window does not stand on its last line
    obtain ⟨-, rfl, -⟩ : before = [] ∧ token = front ∧ more = [] := by
      simpa [List.append_eq_singleton_iff, eq_comm] using h
    simp [Window.isPast, hlast] at hpast
  | case4 walk hf front rest hp hpast ih =>
    cases before with
    | cons _ before => exact ih (List.cons.inj h).2 hlast hback hend
    | nil =>
      obtain ⟨rfl, hmore⟩ := List.cons.inj h
      rcases cut_back_cases walk.window front with hnil | ⟨left, hcut, hline, hcount⟩
      · rw [hnil] at hback
        cases hback
      · have hfin : walk.finished = false := by simpa using hf
        rw [taken_of_isAtEnd hfin hcut hline hend] at hmore
        rw [hcut, List.mem_singleton] at hback
        subst hback
        refine ⟨?_, hmore.symm⟩
        rw [hend] at hcount
        obtain ⟨hnot, -⟩ | ⟨-, below, htext, -⟩ := hcount
        · cases hnot
        · rw [htext, List.head?_cons]

/-- No more tokens are taken than there are tokens and newlines on the list. -/
theorem length_taken_le (walk : Walk) :
    walk.taken.length ≤ walk.pending.length + newlines (Token.spell walk.pending) := by
  fun_induction taken walk with
  | case1 => exact Nat.zero_le _
  | case2 => exact Nat.zero_le _
  | case3 walk hf token rest hp hpast =>
    rw [hp, List.length_singleton, List.length_cons]
    omega
  | case4 walk hf token rest hp hpast ih =>
    rw [hp, Token.spell_cons, newlines_append, List.length_cons, List.length_cons]
    rcases cut_back_cases walk.window token with hnil | ⟨back, hcut, hline, hcount⟩
    · rw [pending_past] at ih
      rw [hnil, List.nil_append] at ih ⊢
      omega
    · obtain ⟨-, hcount⟩ | ⟨hend, below, -, hcount⟩ := hcount
      · rw [pending_past] at ih
        rw [hcut, List.singleton_append] at ih ⊢
        rw [Token.spell_cons, newlines_append, List.length_cons] at ih
        omega
      · have hfin : walk.finished = false := by simpa using hf
        rw [taken_of_isAtEnd hfin hcut hline hend, List.length_singleton]
        omega

/-! ## What comes of it -/

/-- A piece is shown of a token that is taken. -/
theorem Yields.length_le_taken {walk after : Walk} {views : List View}
    (h : Yields walk views after) : views.length ≤ walk.taken.length := by
  induction h with
  | finished => exact Nat.zero_le _
  | empty => exact Nat.zero_le _
  | stop => exact Nat.zero_le _
  | skip hf hp hpast _ _ ih =>
    rw [taken_of_cut hf hp hpast, List.length_cons]
    exact Nat.le_succ_of_le ih
  | keep hf hp hpast _ _ ih =>
    rw [taken_of_cut hf hp hpast, List.length_cons, List.length_cons]
    exact Nat.succ_le_succ ih

/-- What is recorded is what is taken. -/
theorem Yields.history_eq {walk after : Walk} {views : List View} (h : Yields walk views after) :
    after.history = walk.taken.foldl History.push walk.history := by
  induction h with
  | finished hf => rw [taken_of_finished hf, List.foldl_nil]
  | empty _ hp => rw [taken_of_nil hp, List.foldl_nil]
  | stop hf hp hpast => rw [taken_of_isPast hf hp hpast, List.foldl_cons, List.foldl_nil]; rfl
  | skip hf hp hpast _ _ ih => rw [taken_of_cut hf hp hpast, List.foldl_cons, ih]; rfl
  | keep hf hp hpast _ _ ih => rw [taken_of_cut hf hp hpast, List.foldl_cons, ih]; rfl

/-- Whatever is put back is taken again: what is pending in the end was behind the first token. -/
theorem Yields.pending_suffix {walk after : Walk} {views : List View} (h : Yields walk views after)
    (hfin : walk.finished = false) : after.pending <:+ walk.pending.tail := by
  induction h with
  | finished hf =>
    rw [hf] at hfin
    cases hfin
  | empty _ hp => simp [hp]
  | stop _ hp => simp [hp]
  | @skip walk _ token rest _ _ hp _ _ _ ih =>
    rw [hp, List.tail_cons]
    exact (ih hfin).trans (tail_back_suffix walk.window token rest)
  | @keep walk _ token rest _ _ hp _ _ _ ih =>
    rw [hp, List.tail_cons]
    exact (ih hfin).trans (tail_back_suffix walk.window token rest)

end Walk

open Walk in
/-- **A walk ends on every list.** Whatever the kinds, texts and lines of the tokens, the calls
return no more pieces than there are tokens and newlines, then one returns nothing, and from then on
nothing is returned and the walk stays as it is. Nor does a call go round in circles: all in all no
more is taken off the list, and recorded, than there are tokens and newlines; nothing that was put
back is pending in the end; and what is put back with its newline, as its token was cut on the last
line, is the next and the last that is taken. -/
theorem walk_ends_on_every_list (tokens : List Token) (window : Window) :
    let walk := Walk.start tokens window
    walk.pieces.length ≤ tokens.length + newlines (Token.spell tokens)
      ∧ (∀ calls, (walk.afterCalls calls).next?.1 = walk.pieces[calls]?)
      ∧ (∀ calls, walk.pieces.length < calls → walk.afterCalls calls = walk.views.2)
      ∧ walk.views.2.history = walk.taken.foldl History.push .empty
      ∧ walk.taken.length ≤ tokens.length + newlines (Token.spell tokens)
      ∧ walk.views.2.pending <:+ tokens
      ∧ ∀ before token more, walk.taken = before ++ token :: more →
          window.last = some token.line → ∀ back ∈ (cut walk.window token).2,
            back.text.toList.head? = some '\n' ∧ more = [back] := by
  intro walk
  have hyields : Yields walk walk.views.1 walk.views.2 := yields_views walk
  have htaken : walk.taken.length ≤ tokens.length + newlines (Token.spell tokens) :=
    length_taken_le walk
  refine ⟨?_, next?_afterCalls walk, fun _ => afterCalls_of_lt, hyields.history_eq, htaken, ?_, ?_⟩
  · rw [pieces, List.length_map]
    exact Nat.le_trans hyields.length_le_taken htaken
  · cases hfin : walk.finished with
    | true =>
      rw [(hyields.eq_of_finished hfin).2]
      exact List.suffix_refl tokens
    | false => exact (hyields.pending_suffix hfin).trans (List.tail_suffix tokens)
  · intro before token more hsplit hlast back hback
    exact taken_back hsplit (by rw [← hlast]; exact window.last_normalized) hback

/-- A blank line behind the only line of the window: what is left of it is taken and not shown. -/
theorem walk_ends_on_every_list_blank :
    let blank : Token := ⟨.whitespace, "\n\n", 1⟩
    let left : Token := ⟨.whitespace, "\n\n", 2⟩
    let walk := Walk.start [⟨.name, "a", 1⟩, blank, ⟨.name, "b", 3⟩] (.lines 1 1)
    walk.pieces.length = 2
      ∧ (walk.afterCalls 2).next?.1 = none
      ∧ walk.afterCalls 4 = walk.afterCalls 3
      ∧ walk.taken = [⟨.name, "a", 1⟩, blank, left]
      ∧ left ∈ (Walk.cut walk.window blank).2
      ∧ left.text.toList.head? = some '\n' := by
  intro blank left walk
  have hpieces : walk.pieces.length = 2 := by decide +kernel
  have htaken : walk.taken = [⟨.name, "a", 1⟩, blank, left] := by decide +kernel
  have hleft : left ∈ (Walk.cut walk.window blank).2 := by decide
  obtain ⟨-, hcalls, hafter, -, -, -, hlast⟩ :=
    walk_ends_on_every_list [⟨.name, "a", 1⟩, blank, ⟨.name, "b", 3⟩] (.lines 1 1)
  have hkept := hlast [⟨.name, "a", 1⟩] blank [left] htaken rfl left hleft
  refine ⟨hpieces, ?_, ?_, htaken, hleft, hkept.1⟩
  · exact (hcalls 2).trans (List.getElem?_eq_none (Nat.le_of_eq hpieces))
  · have hthree : walk.pieces.length < 3 := by omega
    have hfour : walk.pieces.length < 4 := by omega
    exact (hafter 4 hfour).trans (hafter 3 hthree).symm

end Listing
