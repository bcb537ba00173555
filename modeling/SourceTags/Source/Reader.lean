import SourceTags.Source.ByteSource

/-! # Reading the bytes of a file

A reader gives the bytes of a file in order and counts lines and offsets as it goes. Where the last line
of the file lacks its newline the reader owes one, and gives it after all other bytes; it has an offset of
its own but takes no place among the bytes. A byte that is taken back is kept apart with the position that
was current then, and given again before any other. A jump does not read byte by byte: it looks for the
byte and computes the position it lands on from an index and from the number of newlines passed.
-/
namespace SourceTags

structure Reader where
  /-- The bytes of the file that have not been read. -/
  rest : List UInt8
  /-- The byte taken back and the position to return to with it. -/
  held : Option (UInt8 × Position)
  /-- Position of the byte given last. -/
  here : Position
  /-- Position of the byte that follows those read. -/
  ahead : Position
  /-- Whether a newline is still to be given after `rest`. -/
  owesNewline : Bool
  deriving DecidableEq

namespace Reader

/-- The bytes from `start` on, which keep their offsets. -/
def ofBytes (bytes : List UInt8) (start : Nat) : Reader where
  rest := bytes.drop start
  held := none
  here := ⟨1,start⟩
  ahead := ⟨1,start⟩
  owesNewline := decide (start < bytes.length) && bytes.getLast? != some Byte.newline

/-- The reader after the first of the bytes not read. -/
def giveByte (b : UInt8) (rest : List UInt8) (r : Reader) : Reader :=
  { r with rest, here := r.ahead, ahead := r.ahead.past b }

/-- The reader after the newline that it owes. -/
def giveNewline (r : Reader) : Reader :=
  { r with here := r.ahead, ahead := ⟨r.ahead.line + 1,r.ahead.offset⟩, owesNewline := false }

def next? (r : Reader) : Option (UInt8 × Reader) :=
  match r.held with
  | some (b,p) => some (b,{ r with held := none, here := p })
  | none =>
    match r.rest with
    | b :: rest => some (b,r.giveByte b rest)
    | [] => if r.owesNewline then some (Byte.newline,r.giveNewline) else none

/-- An earlier byte taken back and not given again is lost. -/
def putBack (b : UInt8) (r : Reader) : Reader := { r with held := some (b,r.here) }

/-- The reader after the byte at `index` in `rest`, which is `target`. -/
def passFound (target : UInt8) (index : Nat) (r : Reader) : Reader :=
  let line := r.ahead.line + (r.rest.take index).count Byte.newline
  let offset := r.ahead.offset + index
  { r with
    rest := r.rest.drop (index + 1)
    here := ⟨line,offset⟩
    ahead := ⟨line + if target = Byte.newline then 1 else 0,offset + 1⟩ }

/-- The reader after all of `rest`. The last byte is on the line that it may end. -/
def passRest (r : Reader) : Reader :=
  let newlines := r.rest.count Byte.newline
  let ending := if r.rest.getLast? = some Byte.newline then 1 else 0
  { r with
    rest := []
    here := if r.rest.isEmpty then r.here
      else ⟨r.ahead.line + newlines - ending,r.ahead.offset + r.rest.length - 1⟩
    ahead := ⟨r.ahead.line + newlines,r.ahead.offset + r.rest.length⟩ }

/-- Jumps past the first `target` of `rest`, or past all that there is to read. -/
def jump (target : UInt8) (r : Reader) : Reader :=
  match r.rest.idxOf? target with
  | some index => r.passFound target index
  | none => if r.owesNewline then r.passRest.giveNewline else r.passRest

def skipPast (target : UInt8) (r : Reader) : Reader :=
  match r.held with
  | some (b,p) =>
    let given := { r with held := none, here := p }
    if b = target then given else given.jump target
  | none => r.jump target

def isAtEnd (r : Reader) : Bool := r.held.isNone && r.rest.isEmpty && !r.owesNewline

def unread (r : Reader) : Nat := r.held.toList.length + r.rest.length + r.owesNewline.toNat

theorem isAtEnd_iff (r : Reader) : r.isAtEnd = true ↔ r.next? = none := by
  unfold isAtEnd next?
  cases r.held <;> cases r.rest <;> simp

theorem unread_next {r r' : Reader} {b : UInt8} (h : r.next? = some (b,r')) :
    r'.unread < r.unread := by
  unfold next? at h
  split at h
  · next hp => simp only [Option.some.injEq,Prod.mk.injEq] at h; simp [unread,← h.2,hp]
  · next hp =>
    split at h
    · next hr => simp only [Option.some.injEq,Prod.mk.injEq] at h; simp [unread,giveByte,← h.2,hp,hr]
    · split at h
      · next hr ho =>
        simp only [Option.some.injEq,Prod.mk.injEq] at h
        simp [unread,giveNewline,← h.2,hp,hr,ho]
      · simp at h

theorem unread_putBack (b : UInt8) (r : Reader) : (r.putBack b).unread ≤ r.unread + 1 := by
  simp [unread,putBack]
  omega

theorem unread_jump {r : Reader} (target : UInt8) (h : r.held = none) :
    (r.jump target).unread ≤ r.unread := by
  unfold jump
  split
  · simp [unread,passFound,h]
  · split <;> simp [unread,passRest,giveNewline,h]

theorem unread_skipPast (target : UInt8) (r : Reader) : (r.skipPast target).unread ≤ r.unread := by
  unfold skipPast
  split
  · next b p hp =>
    have hgiven : ({ r with held := none, here := p } : Reader).unread ≤ r.unread := by
      simp [unread]
    dsimp only
    split
    · exact hgiven
    · exact Nat.le_trans (unread_jump target rfl) hgiven
  · next hp => exact unread_jump target hp

instance : ByteSource Reader where
  next? := next?
  putBack := putBack
  skipPast := skipPast
  lastPosition := here
  unread := unread
  unread_next := unread_next
  unread_putBack := unread_putBack
  unread_skipPast := unread_skipPast

end Reader

end SourceTags
