import SourceTags.Token.Basic
import SourceTags.Token.Trivia

/-! # What starts at a byte

A byte that is no blank starts a token, or a comment, or one of two bytes that are dropped. The
function `lexeme` reads on from such a byte, whose position is the source's own, and says which.
-/
namespace SourceTags
open ByteSource

variable {σ : Type} [ByteSource σ]

/-- The text of a literal or of a word, and what follows it. -/
structure Run (σ : Type) where
  text : List UInt8
  rest : σ

/-- Reads a literal after its opening delimiter; `text` is what has been read of it, the last byte
first. A backslash takes the next byte as it is, except between backticks. A literal without an end
goes to the end of the input. -/
def readLiteral (delimiter : UInt8) (text : List UInt8) (s : σ) : Run σ :=
  match _h : next? s with
  | none => ⟨text.reverse,s⟩
  | some (b,rest) =>
    if b == Byte.backslash && delimiter != Byte.backtick then
      match _h' : next? rest with
      | none => ⟨text.reverse,rest⟩
      | some (escaped,after) => readLiteral delimiter (escaped :: text) after
    else if b = delimiter then ⟨text.reverse,rest⟩
    else readLiteral delimiter (b :: text) rest
termination_by unread s
decreasing_by
  · exact Nat.lt_trans (unread_next _h') (unread_next _h)
  · exact unread_next _h

theorem readLiteral_none {delimiter : UInt8} {text : List UInt8} {s : σ} (h : next? s = none) :
    readLiteral delimiter text s = ⟨text.reverse,s⟩ := by
  rw [readLiteral]
  split
  · rfl
  · next h' => simp [h] at h'

theorem readLiteral_some {delimiter b : UInt8} {text : List UInt8} {s rest : σ}
    (h : next? s = some (b,rest)) :
    readLiteral delimiter text s =
      if b == Byte.backslash && delimiter != Byte.backtick then
        match next? rest with
        | none => ⟨text.reverse,rest⟩
        | some (escaped,after) => readLiteral delimiter (escaped :: text) after
      else if b = delimiter then ⟨text.reverse,rest⟩
      else readLiteral delimiter (b :: text) rest := by
  rw [readLiteral]
  split
  · next h' => simp [h] at h'
  · next h' =>
    simp only [h,Option.some.injEq,Prod.mk.injEq] at h'
    obtain ⟨rfl,rfl⟩ := h'
    split
    · split <;> simp_all
    · rfl

theorem unread_readLiteral_le (delimiter : UInt8) (text : List UInt8) (s : σ) :
    unread (readLiteral delimiter text s).rest ≤ unread s := by
  fun_induction readLiteral delimiter text s with
  | case1 => exact Nat.le_refl _
  | case2 _ _ _ _ h => exact Nat.le_of_lt (unread_next h)
  | case3 _ _ _ _ h _ _ _ h' ih =>
    have := unread_next h
    have := unread_next h'
    omega
  | case4 _ _ _ h => exact Nat.le_of_lt (unread_next h)
  | case5 _ _ _ _ h _ _ ih =>
    have := unread_next h
    omega

/-- Reads the rest of a word; `text` is what has been read of it, the last byte first. The byte that
ends the word is given back, since it may be a newline. -/
def readWord (text : List UInt8) (s : σ) : Run σ :=
  match _h : next? s with
  | none => ⟨text.reverse,s⟩
  | some (b,rest) =>
    if Byte.isWord b then readWord (b :: text) rest else ⟨text.reverse,putBack b rest⟩
termination_by unread s
decreasing_by exact unread_next _h

theorem readWord_none {text : List UInt8} {s : σ} (h : next? s = none) :
    readWord text s = ⟨text.reverse,s⟩ := by
  rw [readWord]
  split
  · rfl
  · next h' => simp [h] at h'

theorem readWord_some {b : UInt8} {text : List UInt8} {s rest : σ} (h : next? s = some (b,rest)) :
    readWord text s =
      if Byte.isWord b then readWord (b :: text) rest else ⟨text.reverse,putBack b rest⟩ := by
  rw [readWord]
  split
  · next h' => simp [h] at h'
  · next h' => simp only [h,Option.some.injEq,Prod.mk.injEq] at h'; rw [h'.1,h'.2]

theorem unread_readWord_le (text : List UInt8) (s : σ) :
    unread (readWord text s).rest ≤ unread s := by
  fun_induction readWord text s with
  | case1 => exact Nat.le_refl _
  | case2 _ _ _ _ h _ ih =>
    have := unread_next h
    omega
  | case3 _ _ b rest h =>
    have := unread_next h
    have := unread_putBack b rest
    show unread (putBack b rest) ≤ _
    omega

inductive Lexeme (σ : Type) where
  | token (t : Token) (rest : σ)
  | trivia (rest : σ)

namespace Lexeme

def rest : Lexeme σ → σ
  | token _ rest | trivia rest => rest

end Lexeme

/-- A slash opens a comment with a second slash or a star after it, and is a token elsewhere. -/
def lexemeAtSlash (s : σ) : Lexeme σ :=
  match next? s with
  | none => .token (.bare .forwardSlash (lastPosition s)) s
  | some (b,rest) =>
    if b = Byte.slash then .trivia (afterLineComment rest)
    else if b = Byte.star then .trivia (afterBlockComment rest)
    else .token (.bare .forwardSlash (lastPosition s)) (putBack b rest)

/-- A less-than sign makes an arrow with a dash after it. Any other byte after it is dropped too. -/
def lexemeAtLess (s : σ) : Lexeme σ :=
  match next? s with
  | none => .trivia s
  | some (b,rest) =>
    if b = Byte.dash then .token (.bare .leftArrow (lastPosition s)) rest else .trivia rest

/-- Whatever byte starts a word belongs to it. -/
def lexeme (lexicon : Lexicon) (b : UInt8) (s : σ) : Lexeme σ :=
  if b = Byte.slash then lexemeAtSlash s
  else if b = Byte.less then lexemeAtLess s
  else if Byte.isDelimiter b then
    let run := readLiteral b [] s
    .token ⟨.string,none,run.text,lastPosition s⟩ run.rest
  else
    match TokenKind.ofByte? b with
    | some kind => .token (.bare kind (lastPosition s)) s
    | none =>
      let run := readWord [b] s
      .token (.ofWord lexicon run.text (lastPosition s)) run.rest

theorem unread_lexemeAtSlash (s : σ) : unread (lexemeAtSlash s).rest ≤ unread s := by
  unfold lexemeAtSlash
  split
  · exact Nat.le_refl _
  · next b rest h =>
    have := unread_next h
    have := unread_afterLineComment rest
    have := unread_afterBlockComment rest
    have := unread_putBack b rest
    split
    · simp only [Lexeme.rest]; omega
    · split <;> simp only [Lexeme.rest] <;> omega

theorem unread_lexemeAtLess (s : σ) : unread (lexemeAtLess s).rest ≤ unread s := by
  unfold lexemeAtLess
  split
  · exact Nat.le_refl _
  · next h =>
    have := unread_next h
    split <;> simp only [Lexeme.rest] <;> omega

theorem unread_lexeme (lexicon : Lexicon) (b : UInt8) (s : σ) :
    unread (lexeme lexicon b s).rest ≤ unread s := by
  unfold lexeme
  split
  · exact unread_lexemeAtSlash s
  split
  · exact unread_lexemeAtLess s
  split
  · exact unread_readLiteral_le _ _ _
  split
  · exact Nat.le_refl _
  · exact unread_readWord_le _ _

end SourceTags
