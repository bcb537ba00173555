import SourceTags.Declaration.Group

/-! # Type expressions

A type is skipped without being understood. It is a group in round brackets, or a name that a second
name may qualify, or one of the words `struct`, `trait` and `enum` before a group, or a type that
follows a group in square brackets, a star, an ampersand, a tilde, or `fn` and a group. Any other token
ends the type at once, so a missing type is skipped as well.
-/
namespace SourceTags
open TokenStream

variable {τ : Type} [TokenStream τ]

/-- What a token says of the type that starts at it. -/
inductive TypeForm where
  | missing
  | group
  | name
  | body
  | element
  | signature
  | sign
  deriving DecidableEq

namespace TypeForm

def ofToken (t : Token) : TypeForm :=
  match t.kind with
  | .openParen => group
  | .identifier => name
  | .openSquare => element
  | .star | .ampersand | .sigil => sign
  | .keyword =>
    match t.keyword with
    | some .kwStruct | some .kwTrait | some .kwEnum => body
    | some .kwFn => signature
    | _ => missing
  | _ => missing

/-- Whether a type of this form ends with another type. -/
def hasInner : TypeForm → Bool
  | element | signature | sign => true
  | missing | group | name | body => false

theorem kind_of_element {t : Token} (h : ofToken t = element) : t.kind = .openSquare := by
  unfold ofToken at h
  split at h
  all_goals try contradiction
  · assumption
  · split at h <;> contradiction

end TypeForm

/-- Skips a name whose first part is current. The part after the dot may be any token. -/
def skipTypeName (s : τ) : Reading τ :=
  (advance s).andThen fun t rest =>
    if t.kind = .dot then (advance rest).andThen fun _ rest => advance rest else .token t rest

theorem remaining_skipTypeName {t : Token} {s s' : τ} (h : skipTypeName s = .token t s') :
    remaining s' < remaining s := by
  obtain ⟨_,_,h₁,h⟩ := Reading.andThen_eq_token.1 h
  have := remaining_advance h₁
  split at h
  · obtain ⟨_,_,h₂,h⟩ := Reading.andThen_eq_token.1 h
    have := remaining_advance h₂
    have := remaining_advance h
    omega
  · obtain ⟨-,rfl⟩ := Reading.token.inj h
    exact this

/-- Skips a type of the given form, short of the type inside it. -/
def skipTypeStart (form : TypeForm) (t : Token) (s : τ) : Reading τ :=
  match form with
  | .missing => .token t s
  | .group | .element => skipGroup t s
  | .name => skipTypeName s
  | .body | .signature => readGroup s
  | .sign => advance s

theorem remaining_skipTypeStart_le {form : TypeForm} {t t' : Token} {s s' : τ}
    (h : skipTypeStart form t s = .token t' s') : remaining s' ≤ remaining s := by
  cases form with
  | missing =>
    obtain ⟨-,rfl⟩ := Reading.token.inj h
    exact Nat.le_refl _
  | group | element => exact remaining_skipGroup h
  | name => exact Nat.le_of_lt (remaining_skipTypeName h)
  | body | signature => exact Nat.le_of_lt (remaining_readGroup h)
  | sign => exact Nat.le_of_lt (remaining_advance h)

theorem remaining_skipTypeStart_lt {t t' : Token} {s s' : τ} (hi : (TypeForm.ofToken t).hasInner)
    (h : skipTypeStart (.ofToken t) t s = .token t' s') : remaining s' < remaining s := by
  generalize hf : TypeForm.ofToken t = form at hi h
  cases form with
  | missing | group | name | body => contradiction
  | element =>
    unfold skipTypeStart skipGroup at h
    rw [TypeForm.kind_of_element hf] at h
    exact remaining_closeGroup h
  | signature => exact remaining_readGroup h
  | sign => exact remaining_advance h

/-- Skips the type that starts at the current token, and leaves the token after it as the current one. -/
def skipTypeExpr (t : Token) (s : τ) : Reading τ :=
  match _h : skipTypeStart (.ofToken t) t s with
  | .endOfInput left rest => .endOfInput left rest
  | .token t' rest =>
    if _hi : (TypeForm.ofToken t).hasInner then skipTypeExpr t' rest else .token t' rest
termination_by remaining s
decreasing_by exact remaining_skipTypeStart_lt _hi _h

theorem skipTypeExpr_eq (t : Token) (s : τ) :
    skipTypeExpr t s = (skipTypeStart (.ofToken t) t s).andThen fun t' rest =>
      if (TypeForm.ofToken t).hasInner then skipTypeExpr t' rest else .token t' rest := by
  rw [skipTypeExpr]
  split <;> simp_all

theorem remaining_skipTypeExpr {t t' : Token} {s s' : τ} (h : skipTypeExpr t s = .token t' s') :
    remaining s' ≤ remaining s := by
  fun_induction skipTypeExpr t s with
  | case1 => contradiction
  | case2 _ _ _ _ hs _ ih => exact Nat.le_trans (ih h) (remaining_skipTypeStart_le hs)
  | case3 _ _ _ _ hs =>
    obtain ⟨-,rfl⟩ := Reading.token.inj h
    exact remaining_skipTypeStart_le hs

end SourceTags
