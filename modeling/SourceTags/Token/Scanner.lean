import SourceTags.Token.Lexeme
import SourceTags.Token.Stream

/-! # The tokens of a source

A scanner reads tokens from a source of bytes. Besides the source and the lexicon it keeps the kind of
the token read last, which decides whether a newline ends a statement.
-/
namespace SourceTags
open ByteSource

variable {σ : Type} [ByteSource σ]

/-- Reads the next token; `ends` says whether a newline before it is a terminator. -/
def nextToken (lexicon : Lexicon) (ends : Bool) (s : σ) : Reading σ :=
  match _h : afterBlanks ends s with
  | .endOfInput rest => .endOfInput (.bare .absent (lastPosition rest)) rest
  | .terminator rest => .token (.bare .terminator (lastPosition rest)) rest
  | .byte b rest =>
    match _h' : lexeme lexicon b rest with
    | .token t after => .token t after
    | .trivia after => nextToken lexicon ends after
termination_by unread s
decreasing_by
  have hb := unread_afterBlanks ends s
  have hl := unread_lexeme lexicon b rest
  rw [_h] at hb
  rw [_h'] at hl
  exact Nat.lt_of_le_of_lt hl hb

theorem nextToken_endOfInput {lexicon : Lexicon} {ends : Bool} {s rest : σ}
    (h : afterBlanks ends s = .endOfInput rest) :
    nextToken lexicon ends s = .endOfInput (.bare .absent (lastPosition rest)) rest := by
  rw [nextToken]
  split <;> simp_all

theorem nextToken_terminator {lexicon : Lexicon} {ends : Bool} {s rest : σ}
    (h : afterBlanks ends s = .terminator rest) :
    nextToken lexicon ends s = .token (.bare .terminator (lastPosition rest)) rest := by
  rw [nextToken]
  split <;> simp_all

theorem nextToken_byte {lexicon : Lexicon} {ends : Bool} {s rest : σ} {b : UInt8}
    (h : afterBlanks ends s = .byte b rest) :
    nextToken lexicon ends s =
      match lexeme lexicon b rest with
      | .token t after => .token t after
      | .trivia after => nextToken lexicon ends after := by
  rw [nextToken]
  split
  · simp_all
  · simp_all
  · next h' =>
    rw [h] at h'
    obtain ⟨rfl,rfl⟩ := AfterBlanks.byte.inj h'
    split <;> simp_all

theorem unread_nextToken {lexicon : Lexicon} {ends : Bool} {s rest : σ} {t : Token}
    (h : nextToken lexicon ends s = .token t rest) : unread rest < unread s := by
  fun_induction nextToken lexicon ends s with
  | case1 => simp at h
  | case2 s after hb =>
    have := unread_afterBlanks ends s
    rw [hb] at this
    obtain ⟨-,rfl⟩ := Reading.token.inj h
    exact this
  | case3 s b rest hb t after hl =>
    have := unread_afterBlanks ends s
    have hr := unread_lexeme lexicon b rest
    rw [hb] at this
    rw [hl] at hr
    obtain ⟨-,rfl⟩ := Reading.token.inj h
    exact Nat.lt_of_le_of_lt hr this
  | case4 s b rest hb after hl ih =>
    have := unread_afterBlanks ends s
    have hr := unread_lexeme lexicon b rest
    rw [hb] at this
    rw [hl] at hr
    exact Nat.lt_trans (ih h) (Nat.lt_of_le_of_lt hr this)

structure Scanner (σ : Type) where
  source : σ
  lexicon : Lexicon
  previous : TokenKind

namespace Scanner

def ofSource (source : σ) (lexicon : Lexicon) : Scanner σ := ⟨source,lexicon,.absent⟩

/-- The end of the input leaves the kind of the last token as it was. -/
def advance (z : Scanner σ) : Reading (Scanner σ) :=
  match nextToken z.lexicon z.previous.mayEndStatement z.source with
  | .token t rest => .token t { z with source := rest, previous := t.kind }
  | .endOfInput left rest => .endOfInput left { z with source := rest }

theorem unread_advance {z z' : Scanner σ} {t : Token} (h : z.advance = .token t z') :
    unread z'.source < unread z.source := by
  unfold advance at h
  split at h
  · next hs =>
    obtain ⟨-,rfl⟩ := Reading.token.inj h
    exact unread_nextToken hs
  · simp at h

instance : TokenStream (Scanner σ) where
  advance := advance
  remaining z := unread z.source
  remaining_advance := unread_advance

end Scanner

end SourceTags
