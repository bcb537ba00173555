import SourceTags.Token.Stream

/-! # Bracket groups

A group runs from an opening bracket to the bracket that matches it. Only brackets of the kind that
opened the group are counted; inside round brackets, curly and square ones are tokens like any other.
-/
namespace SourceTags
open TokenStream

variable {τ : Type} [TokenStream τ]

/-- Reads through the end of a group and one token more. So many groups of the same kind are still
open inside it as `inner` says. -/
def closeGroup (opening closing : TokenKind) (inner : Nat) (s : τ) : Reading τ :=
  match _h : advance s with
  | .endOfInput left rest => .endOfInput left rest
  | .token t rest =>
    if t.kind = opening then closeGroup opening closing (inner + 1) rest
    else if t.kind = closing then
      match inner with
      | 0 => advance rest
      | inner + 1 => closeGroup opening closing inner rest
    else closeGroup opening closing inner rest
termination_by remaining s
decreasing_by all_goals exact remaining_advance _h

theorem closeGroup_endOfInput {opening closing : TokenKind} {inner : Nat} {s rest : τ} {left : Token}
    (h : advance s = .endOfInput left rest) :
    closeGroup opening closing inner s = .endOfInput left rest := by
  rw [closeGroup]
  split <;> simp_all

theorem closeGroup_token {opening closing : TokenKind} {inner : Nat} {s rest : τ} {t : Token}
    (h : advance s = .token t rest) :
    closeGroup opening closing inner s =
      if t.kind = opening then closeGroup opening closing (inner + 1) rest
      else if t.kind = closing then
        match inner with
        | 0 => advance rest
        | inner + 1 => closeGroup opening closing inner rest
      else closeGroup opening closing inner rest := by
  rw [closeGroup]
  split
  · simp_all
  · next h' =>
    obtain ⟨rfl,rfl⟩ := Reading.token.inj (h.symm.trans h')
    rfl

theorem closeGroup_eq (opening closing : TokenKind) (inner : Nat) (s : τ) :
    closeGroup opening closing inner s = (advance s).andThen fun t rest =>
      if t.kind = opening then closeGroup opening closing (inner + 1) rest
      else if t.kind = closing then
        match inner with
        | 0 => advance rest
        | inner + 1 => closeGroup opening closing inner rest
      else closeGroup opening closing inner rest := by
  cases h : advance s with
  | token => rw [closeGroup_token h,Reading.andThen_token]
  | endOfInput => rw [closeGroup_endOfInput h,Reading.andThen_endOfInput]

theorem remaining_closeGroup {opening closing : TokenKind} {inner : Nat} {s s' : τ} {t : Token}
    (h : closeGroup opening closing inner s = .token t s') : remaining s' < remaining s := by
  fun_induction closeGroup opening closing inner s with
  | case1 => simp at h
  | case2 _ _ _ _ hr _ ih => exact Nat.lt_trans (ih h) (remaining_advance hr)
  | case3 _ _ _ hr => exact Nat.lt_trans (remaining_advance h) (remaining_advance hr)
  | case4 _ _ _ hr _ _ _ ih => exact Nat.lt_trans (ih h) (remaining_advance hr)
  | case5 _ _ _ _ hr _ _ ih => exact Nat.lt_trans (ih h) (remaining_advance hr)

/-- Skips the group that the current token opens, and leaves the token after it as the current one.
A token that opens no group stays current. -/
def skipGroup (t : Token) (s : τ) : Reading τ :=
  match t.kind.closer with
  | none => .token t s
  | some closing => closeGroup t.kind closing 0 s

theorem skipGroup_of_closer_eq_none {t : Token} (h : t.kind.closer = none) (s : τ) :
    skipGroup t s = .token t s := by simp [skipGroup,h]

theorem remaining_skipGroup {t t' : Token} {s s' : τ} (h : skipGroup t s = .token t' s') :
    remaining s' ≤ remaining s := by
  unfold skipGroup at h
  split at h
  · obtain ⟨-,rfl⟩ := Reading.token.inj h
    exact Nat.le_refl _
  · exact Nat.le_of_lt (remaining_closeGroup h)

/-- Reads a token, and skips the group that it may open. -/
def readGroup (s : τ) : Reading τ := (advance s).andThen skipGroup

theorem remaining_readGroup {t : Token} {s s' : τ} (h : readGroup s = .token t s') :
    remaining s' < remaining s := by
  obtain ⟨_,_,hr,hg⟩ := Reading.andThen_eq_token.1 h
  exact Nat.lt_of_le_of_lt (remaining_skipGroup hg) (remaining_advance hr)

/-- Reads up to the next terminator outside all groups that are opened on the way. -/
def seekTerminator (t : Token) (s : τ) : Reading τ :=
  if t.kind = .terminator then .token t s
  else
    match _h : readGroup s with
    | .token t' rest => seekTerminator t' rest
    | .endOfInput left rest => .endOfInput left rest
termination_by remaining s
decreasing_by exact remaining_readGroup _h

theorem seekTerminator_terminator {t : Token} (h : t.kind = .terminator) (s : τ) :
    seekTerminator t s = .token t s := by rw [seekTerminator,if_pos h]

theorem seekTerminator_of_ne {t : Token} (h : t.kind ≠ .terminator) (s : τ) :
    seekTerminator t s = (readGroup s).andThen seekTerminator := by
  rw [seekTerminator,if_neg h]
  split <;> simp_all

theorem remaining_seekTerminator {t t' : Token} {s s' : τ}
    (h : seekTerminator t s = .token t' s') : remaining s' ≤ remaining s := by
  fun_induction seekTerminator t s with
  | case1 =>
    obtain ⟨-,rfl⟩ := Reading.token.inj h
    exact Nat.le_refl _
  | case2 _ _ _ _ _ hr ih => exact Nat.le_trans (ih h) (Nat.le_of_lt (remaining_readGroup hr))
  | case3 => simp at h

end SourceTags
