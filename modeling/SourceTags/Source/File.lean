import SourceTags.Source.Cursor
import SourceTags.Source.Reader

/-! # Source files

The bytes of a file are kept as they are. What is read of them is their content: the bytes after a
byte order mark, and one more newline where the last line of a non-empty file lacks its own, so that
the last line ends like every other. Offsets count the mark. A file is read by its reader; the cursor gives
the bytes of the whole content, and what holds of it holds of the reader.
-/
namespace SourceTags

structure SourceFile where
  bytes : List UInt8
  deriving DecidableEq

namespace SourceFile

def mark : List UInt8 := [0xEF,0xBB,0xBF]

def hasMark (f : SourceFile) : Bool := mark.isPrefixOf f.bytes

/-- Offset of the first byte of the content. -/
def start (f : SourceFile) : Nat := if f.hasMark then mark.length else 0

def body (f : SourceFile) : List UInt8 := f.bytes.drop f.start

def lacksNewline (f : SourceFile) : Bool :=
  !f.body.isEmpty && f.body.getLast? != some Byte.newline

def content (f : SourceFile) : List UInt8 :=
  if f.lacksNewline then f.body ++ [Byte.newline] else f.body

def cursor (f : SourceFile) : Cursor := .ofList f.start f.content

def reader (f : SourceFile) : Reader := .ofBytes f.bytes f.start

/-- Where the byte at an index of the content stands, as the newlines before it say. -/
def positionAt (f : SourceFile) (i : Nat) : Position :=
  ⟨1 + (f.content.take i).count Byte.newline,f.start + i⟩

theorem positionAt_succ {f : SourceFile} {i : Nat} {b : UInt8} (h : f.content[i]? = some b) :
    f.positionAt (i + 1) = (f.positionAt i).past b := by
  simp only [positionAt,Position.past,List.take_add_one,h,Option.toList_some,List.count_append,
    List.count_singleton,beq_iff_eq,Position.mk.injEq]
  constructor
  · split <;> rfl
  · rfl

theorem positionAt_length {f : SourceFile} {first rest : List UInt8} (h : f.content = first ++ rest) :
    f.positionAt first.length = (⟨1,f.start⟩ : Position).pastAll first := by
  rw [positionAt,h,List.take_left]
  rfl

end SourceFile

end SourceTags
