/-! # UTF-8 text

`encode` gives the bytes of a text. `decode` reads any bytes as text: bytes that are not well-formed
UTF-8 become U+FFFD, one for each maximal part that could still have begun a character.
-/
namespace SourceTags.Utf8

def encode (s : String) : List UInt8 := s.toList.flatMap String.utf8EncodeChar

def replacement : Char := '\uFFFD'

/-- A character that has begun: the bits read so far, the number of bytes owed after the next one,
and the range in which the next one must lie. -/
structure Begun where
  bits : Nat
  owed : Nat
  low : UInt8
  high : UInt8

/-- What a byte is at the place where a character starts. -/
inductive Lead where
  | whole (c : Char)
  | begins (b : Begun)
  | stray

/-- The narrowed ranges shut out overlong forms, surrogates and values above U+10FFFF. -/
def lead (b : UInt8) : Lead :=
  if b < 0x80 then .whole (Char.ofNat b.toNat)
  else if b < 0xC2 then .stray
  else if b < 0xE0 then .begins ⟨b.toNat % 32,0,0x80,0xBF⟩
  else if b = 0xE0 then .begins ⟨0,1,0xA0,0xBF⟩
  else if b = 0xED then .begins ⟨13,1,0x80,0x9F⟩
  else if b < 0xF0 then .begins ⟨b.toNat % 16,1,0x80,0xBF⟩
  else if b = 0xF0 then .begins ⟨0,2,0x90,0xBF⟩
  else if b < 0xF4 then .begins ⟨b.toNat % 8,2,0x80,0xBF⟩
  else if b = 0xF4 then .begins ⟨4,2,0x80,0x8F⟩
  else .stray

/-- The characters read so far, the last one first, and the one that has begun. -/
structure Decoder where
  read : List Char
  begun : Option Begun

namespace Decoder

def empty : Decoder := ⟨[],none⟩

/-- Takes a byte where a character starts. -/
def startWith (read : List Char) (b : UInt8) : Decoder :=
  match lead b with
  | .whole c => ⟨c :: read,none⟩
  | .begins begun => ⟨read,some begun⟩
  | .stray => ⟨replacement :: read,none⟩

/-- A byte that cannot continue what has begun is taken as the start of something new. -/
def feed (d : Decoder) (b : UInt8) : Decoder :=
  match d.begun with
  | none => startWith d.read b
  | some begun =>
    if begun.low ≤ b ∧ b ≤ begun.high then
      let bits := begun.bits * 64 + b.toNat % 64
      match begun.owed with
      | 0 => ⟨Char.ofNat bits :: d.read,none⟩
      | owed + 1 => ⟨d.read,some ⟨bits,owed,0x80,0xBF⟩⟩
    else startWith (replacement :: d.read) b

def finish (d : Decoder) : List Char :=
  match d.begun with
  | none => d.read.reverse
  | some _ => (replacement :: d.read).reverse

end Decoder

def decodeChars (bytes : List UInt8) : List Char := (bytes.foldl Decoder.feed .empty).finish

def decode (bytes : List UInt8) : String := String.ofList (decodeChars bytes)

end SourceTags.Utf8
