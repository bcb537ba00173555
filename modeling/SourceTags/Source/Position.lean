import SourceTags.Byte

/-! # Positions in a source

A position is the line of a byte, counted from 1, and its offset from the first byte of the source.
`past` steps over one byte and `pastAll` over many at once, by counting newlines; `pastAll_cons` says
that the two agree.
-/
namespace SourceTags

structure Position where
  line : Nat
  offset : Nat
  deriving DecidableEq

namespace Position

def past (p : Position) (b : UInt8) : Position :=
  ⟨if b = Byte.newline then p.line + 1 else p.line,p.offset + 1⟩

def pastAll (p : Position) (bs : List UInt8) : Position :=
  ⟨p.line + bs.count Byte.newline,p.offset + bs.length⟩

@[simp] theorem pastAll_nil (p : Position) : p.pastAll [] = p := by simp [pastAll]

theorem pastAll_cons (p : Position) (b : UInt8) (bs : List UInt8) :
    p.pastAll (b :: bs) = (p.past b).pastAll bs := by
  simp only [pastAll,past,List.count_cons,List.length_cons,beq_iff_eq,Position.mk.injEq]
  constructor
  · split <;> omega
  · omega

@[simp] theorem pastAll_singleton (p : Position) (b : UInt8) : p.pastAll [b] = p.past b := by
  rw [pastAll_cons,pastAll_nil]

theorem pastAll_append (p : Position) (as bs : List UInt8) :
    p.pastAll (as ++ bs) = (p.pastAll as).pastAll bs := by
  simp only [pastAll,List.count_append,List.length_append,Position.mk.injEq]
  omega

end Position

end SourceTags
