import SourceTags.Source.Position

/-! # Where bytes come from

A source of bytes gives one byte at a time, takes back one byte that the next reading then gives
again, and can jump past the next occurrence of a byte. It knows the position of the byte it gave
last. A source that has nothing more to give stays as it is.

Every source is finite: `unread` bounds the bytes it can still give, a reading lowers it, a byte taken
back raises it by at most one, and a jump never raises it. All loops over a source end by `unread`.
-/
namespace SourceTags

class ByteSource (σ : Type) where
  next? : σ → Option (UInt8 × σ)
  putBack : UInt8 → σ → σ
  skipPast : UInt8 → σ → σ
  lastPosition : σ → Position
  unread : σ → Nat
  unread_next {s s' : σ} {b : UInt8} : next? s = some (b,s') → unread s' < unread s
  unread_putBack (b : UInt8) (s : σ) : unread (putBack b s) ≤ unread s + 1
  unread_skipPast (b : UInt8) (s : σ) : unread (skipPast b s) ≤ unread s

end SourceTags
