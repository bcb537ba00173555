import SourceTags.Source.ByteSource

/-! # Reading a list of bytes

A cursor gives the bytes of a list in order and counts lines and offsets as it goes. A byte that is
taken back is kept apart with the position that was current then, and given again before any other.
A jump passes many bytes at once and computes the position it lands on from their number and from the
newlines among them.
-/
namespace SourceTags

structure Cursor where
  /-- The byte taken back and the position to return to with it. -/
  held : Option (UInt8 × Position)
  rest : List UInt8
  /-- Position of the byte given last. -/
  here : Position
  /-- Position of the first byte of `rest`. -/
  ahead : Position
  deriving DecidableEq

namespace Cursor

/-- The bytes are numbered from `start`, and the cursor stands on the first of them. -/
def ofList (start : Nat) (bytes : List UInt8) : Cursor :=
  ⟨none,bytes,⟨1,start⟩,⟨1,start⟩⟩

def next? (c : Cursor) : Option (UInt8 × Cursor) :=
  match c.held with
  | some (b,p) => some (b,{ c with held := none, here := p })
  | none =>
    match c.rest with
    | b :: rest => some (b,⟨none,rest,c.ahead,c.ahead.past b⟩)
    | [] => none

/-- An earlier byte taken back and not given again is lost. -/
def putBack (b : UInt8) (c : Cursor) : Cursor := { c with held := some (b,c.here) }

/-- Jumps past the first `target` of `rest`, or past all of it. -/
def jump (target : UInt8) (c : Cursor) : Cursor :=
  let passed := c.rest.takeWhile (· != target)
  match c.rest.dropWhile (· != target) with
  | found :: rest =>
    let p := c.ahead.pastAll passed
    ⟨none,rest,p,p.past found⟩
  | [] =>
    ⟨none,[],if passed.isEmpty then c.here else c.ahead.pastAll passed.dropLast,
      c.ahead.pastAll passed⟩

def skipPast (target : UInt8) (c : Cursor) : Cursor :=
  match c.held with
  | some (b,p) =>
    let given := { c with held := none, here := p }
    if b = target then given else given.jump target
  | none => c.jump target

def unread (c : Cursor) : Nat := c.held.toList.length + c.rest.length

theorem unread_next {c c' : Cursor} {b : UInt8} (h : c.next? = some (b,c')) :
    c'.unread < c.unread := by
  unfold next? at h
  split at h
  · next hp => simp only [Option.some.injEq,Prod.mk.injEq] at h; simp [unread,← h.2,hp]
  · next hp =>
    split at h
    · next hr => simp only [Option.some.injEq,Prod.mk.injEq] at h; simp [unread,← h.2,hp,hr]
    · simp at h

theorem unread_putBack (b : UInt8) (c : Cursor) : (c.putBack b).unread ≤ c.unread + 1 := by
  simp [unread,putBack]
  omega

theorem unread_jump (target : UInt8) (c : Cursor) : (c.jump target).unread ≤ c.rest.length := by
  unfold jump
  have hl : (c.rest.dropWhile (· != target)).length ≤ c.rest.length :=
    (List.dropWhile_sublist _).length_le
  split
  · next h => simp [unread,h] at hl ⊢; omega
  · simp [unread]

theorem unread_skipPast (target : UInt8) (c : Cursor) : (c.skipPast target).unread ≤ c.unread := by
  unfold skipPast
  split
  · next hp =>
    dsimp only
    split
    · simp [unread]
    · have := unread_jump target { c with held := none, here := ‹Position› }
      simp only [unread] at this ⊢
      omega
  · next hp => have := unread_jump target c; simp only [unread] at this ⊢; omega

instance : ByteSource Cursor where
  next? := next?
  putBack := putBack
  skipPast := skipPast
  lastPosition := here
  unread := unread
  unread_next := unread_next
  unread_putBack := unread_putBack
  unread_skipPast := unread_skipPast

end Cursor

end SourceTags
