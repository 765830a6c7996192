import Listing.Proofs.Edges
import Listing.Proofs.Labels

/-!
# Labels by position

In a window without ends every token is shown as it is, and each is labelled from what the walk
remembers and has yet to come to. What that is can be said of the list alone: `Role.atPosition`
takes the tokens before a position, the newest first and not more than nineteen, and the two after
it. The history holds one token more, as the newest is the token itself. The label of a name tells
its role (`Span.nameLabel_injective`), so nothing else can have been taken.
-/

namespace Listing

/-- The role that the nineteen tokens before a position of a list and the two after it give a
name. -/
def Role.atPosition (tokens : List Token) (i : Nat) (name : Token) : Option Role :=
  resolve name.text ((tokens.take i).reverse.take 19) ((tokens.drop (i + 1)).take 2)

/-- The span of a token at a position of a list: a name is labelled by its kind and by its role
there, all else as its kind has it. -/
def Span.atPosition (tokens : List Token) (i : Nat) (token : Token) : Span :=
  if token.kind = .name then
    { label := some (nameLabel token.kind.label (Role.atPosition tokens i token))
      text := token.text }
  else ofToken token .empty []

theorem Span.atPosition_eq (tokens : List Token) :
    atPosition tokens = fun i token => ofRole token (Role.atPosition tokens i token) := by
  funext i token
  rw [atPosition, ofRole, ofName_eq]

theorem Labelled.map_span_ofTokens {window : Window} (h : window.isActive = false)
    (seen tokens : List Token) :
    (ofTokens window seen tokens).map span = tokens.mapIdx fun i token =>
      .ofRole token (Role.resolve token.text (((tokens.take i).reverse ++ seen).take 19)
        ((tokens.drop (i + 1)).take 2)) := by
  induction tokens generalizing seen with
  | nil => rfl
  | cons token tokens ih =>
    have hone : Walk.entries window token = [token] := by simp [Walk.entries, h]
    rw [ofTokens, hone, List.map_cons, ih, List.mapIdx_cons]
    simp [span, History.capacity]

/-- **Without a window tokens are labelled by their position.** The pieces of the walk are the
tokens of the list, and the span of each, as it goes on the page, is the one that the list alone
gives it. If it is that of a name with some role, this is the role at its position. -/
theorem walk_labels_by_position (tokens : List Token) (focus : Option Nat) :
    let walk := Walk.start tokens { focus }
    walk.views.1.map Walk.View.piece = tokens
      ∧ walk.views.1.map Walk.View.span = tokens.mapIdx (Span.atPosition tokens)
      ∧ renderTokens tokens { focus }
        = ((tokens.mapIdx (Span.atPosition tokens)).foldl Page.push (.start { focus })).finish
            false
      ∧ ∀ i name role, tokens[i]? = some name → name.kind = .name →
        (walk.views.1.map Walk.View.span)[i]?.map Span.label
          = some (some (Span.nameLabel name.kind.label role)) →
        role = Role.atPosition tokens i name := by
  intro walk
  have hyields := Walk.yields_views walk
  have hspans : walk.views.1.map Walk.View.span = tokens.mapIdx (Span.atPosition tokens) := by
    have hseen : Walk.Remembers walk.history [] := rfl
    rw [hyields.map_span_of_open rfl rfl rfl hseen, Labelled.map_span_ofTokens rfl,
      Span.atPosition_eq]
    simp only [List.append_nil]
    rfl
  have htruncated : walk.views.2.truncated = false := hyields.truncated_of_open rfl
  refine ⟨hyields.eq_pending rfl rfl rfl, hspans, ?_, ?_⟩
  · rw [renderTokens, hspans, htruncated]
    rfl
  · intro i name role hname hkind hlabel
    rw [hspans, List.getElem?_mapIdx, hname, Option.map_some, Option.map_some, Span.atPosition,
      if_pos hkind, Option.some_inj, Option.some_inj] at hlabel
    exact (Span.nameLabel_injective _ hlabel).symm

end Listing
