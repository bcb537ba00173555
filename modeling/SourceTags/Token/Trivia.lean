import SourceTags.Source.ByteSource

/-! # Blanks and comments

What stands between tokens. A newline is a blank unless it ends a statement. A comment is replaced by a
blank that the source gives next: a line comment by the newline that ends it, a block comment by a
newline if it spans lines and by a space if it does not.
-/
namespace SourceTags
open ByteSource

variable {σ : Type} [ByteSource σ]

inductive AfterBlanks (σ : Type) where
  | terminator (rest : σ)
  | byte (b : UInt8) (rest : σ)
  | endOfInput (rest : σ)

/-- Skips blanks up to the first other byte, or to the first newline if that ends a statement. -/
def afterBlanks (ends : Bool) (s : σ) : AfterBlanks σ :=
  match _h : next? s with
  | none => .endOfInput s
  | some (b,rest) =>
    if ends && b == Byte.newline then .terminator rest
    else if Byte.isBlank b then afterBlanks ends rest
    else .byte b rest
termination_by unread s
decreasing_by exact unread_next _h

theorem afterBlanks_none {ends : Bool} {s : σ} (h : next? s = none) :
    afterBlanks ends s = .endOfInput s := by
  rw [afterBlanks]
  split
  · rfl
  · next h' => simp [h] at h'

theorem afterBlanks_some {ends : Bool} {s rest : σ} {b : UInt8} (h : next? s = some (b,rest)) :
    afterBlanks ends s =
      if ends && b == Byte.newline then .terminator rest
      else if Byte.isBlank b then afterBlanks ends rest
      else .byte b rest := by
  rw [afterBlanks]
  split
  · next h' => simp [h] at h'
  · next h' => simp only [h,Option.some.injEq,Prod.mk.injEq] at h'; rw [h'.1,h'.2]

theorem unread_afterBlanks (ends : Bool) (s : σ) :
    match afterBlanks ends s with
    | .terminator rest | .byte _ rest => unread rest < unread s
    | .endOfInput rest => next? rest = none ∧ unread rest ≤ unread s := by
  fun_induction afterBlanks ends s with
  | case1 s h => exact ⟨h,Nat.le_refl _⟩
  | case2 s b rest h _ => exact unread_next h
  | case3 s b rest h _ _ ih =>
    have := unread_next h
    split at ih
    · omega
    · omega
    · exact ⟨ih.1,by omega⟩
  | case4 s b rest h _ _ => exact unread_next h

/-- A block comment that has been read: whether it spans lines, and what follows it. -/
structure BlockComment (σ : Type) where
  spansLines : Bool
  rest : σ

/-- Reads on through the next star. -/
def seekStar (spans : Bool) (s : σ) : BlockComment σ :=
  match _h : next? s with
  | none => ⟨spans,s⟩
  | some (b,rest) =>
    if b = Byte.star then ⟨spans,rest⟩
    else seekStar (spans || b == Byte.newline) rest
termination_by unread s
decreasing_by exact unread_next _h

theorem seekStar_none {spans : Bool} {s : σ} (h : next? s = none) : seekStar spans s = ⟨spans,s⟩ := by
  rw [seekStar]
  split
  · rfl
  · next h' => simp [h] at h'

theorem seekStar_some {spans : Bool} {s rest : σ} {b : UInt8} (h : next? s = some (b,rest)) :
    seekStar spans s =
      if b = Byte.star then ⟨spans,rest⟩ else seekStar (spans || b == Byte.newline) rest := by
  rw [seekStar]
  split
  · next h' => simp [h] at h'
  · next h' => simp only [h,Option.some.injEq,Prod.mk.injEq] at h'; rw [h'.1,h'.2]

theorem unread_seekStar_le (spans : Bool) (s : σ) : unread (seekStar spans s).rest ≤ unread s := by
  fun_induction seekStar spans s with
  | case1 => exact Nat.le_refl _
  | case2 _ _ _ h => exact Nat.le_of_lt (unread_next h)
  | case3 _ _ _ _ h _ ih => exact Nat.le_trans ih (Nat.le_of_lt (unread_next h))

/-- A source that goes on after a star has given that star. -/
theorem unread_seekStar_lt {spans : Bool} {s : σ} {x : UInt8 × σ}
    (hx : next? (seekStar spans s).rest = some x) : unread (seekStar spans s).rest < unread s := by
  fun_induction seekStar spans s with
  | case1 _ _ h => simp [h] at hx
  | case2 _ _ _ h => exact unread_next h
  | case3 _ _ _ _ h _ ih => exact Nat.lt_trans (ih hx) (unread_next h)

/-- Skips a block comment after its opening. It ends at the first slash that follows a star, or with
the input; a byte after a star that is no slash is looked at again, since it may be a star too. -/
def closeBlockComment (spans : Bool) (s : σ) : BlockComment σ :=
  match _h : next? (seekStar spans s).rest with
  | none => seekStar spans s
  | some (b,rest) =>
    if b = Byte.slash then ⟨(seekStar spans s).spansLines,rest⟩
    else closeBlockComment (seekStar spans s).spansLines (putBack b rest)
termination_by unread s
decreasing_by
  have := unread_next _h
  have := unread_seekStar_lt _h
  have := unread_putBack b rest
  omega

theorem closeBlockComment_none {spans : Bool} {s : σ} (h : next? (seekStar spans s).rest = none) :
    closeBlockComment spans s = seekStar spans s := by
  rw [closeBlockComment]
  split
  · rfl
  · next h' => simp [h] at h'

theorem closeBlockComment_some {spans : Bool} {s rest : σ} {b : UInt8}
    (h : next? (seekStar spans s).rest = some (b,rest)) :
    closeBlockComment spans s =
      if b = Byte.slash then ⟨(seekStar spans s).spansLines,rest⟩
      else closeBlockComment (seekStar spans s).spansLines (putBack b rest) := by
  rw [closeBlockComment]
  split
  · next h' => simp [h] at h'
  · next h' => simp only [h,Option.some.injEq,Prod.mk.injEq] at h'; rw [h'.1,h'.2]

theorem unread_closeBlockComment_le (spans : Bool) (s : σ) :
    unread (closeBlockComment spans s).rest ≤ unread s := by
  fun_induction closeBlockComment spans s with
  | case1 => exact unread_seekStar_le _ _
  | case2 spans s rest h =>
    have := unread_next h
    have := unread_seekStar_le spans s
    show unread rest ≤ unread s
    omega
  | case3 spans s b rest h _ ih =>
    have := unread_next h
    have := unread_seekStar_lt h
    have := unread_putBack b rest
    omega

/-- The source after a line comment whose two slashes have been read. -/
def afterLineComment (s : σ) : σ := putBack Byte.newline (skipPast Byte.newline s)

/-- The source after a block comment whose opening has been read. -/
def afterBlockComment (s : σ) : σ :=
  let comment := closeBlockComment false s
  putBack (if comment.spansLines then Byte.newline else Byte.space) comment.rest

theorem unread_afterLineComment (s : σ) : unread (afterLineComment s) ≤ unread s + 1 := by
  have := unread_putBack Byte.newline (skipPast Byte.newline s)
  have := unread_skipPast Byte.newline s
  unfold afterLineComment
  omega

theorem unread_afterBlockComment (s : σ) : unread (afterBlockComment s) ≤ unread s + 1 := by
  have := unread_putBack (if (closeBlockComment false s).spansLines then Byte.newline else Byte.space)
    (closeBlockComment false s).rest
  have := unread_closeBlockComment_le false s
  unfold afterBlockComment
  dsimp only
  omega

end SourceTags
