import SourceTags.Byte

/-! # Kinds of tokens

A token is a word, a keyword, a literal, a single byte of punctuation, the arrow `<-`, or a terminator
that stands for a newline. Kinds that may end a statement make a newline after them a terminator.
-/
namespace SourceTags

/-- `absent` is the kind before any token has been read. `character` and `doubleColon` belong to the
vocabulary, but an apostrophe opens a literal and a colon is part of a word, so no source has them. -/
inductive TokenKind where
  | absent
  | character
  | forwardSlash
  | keyword
  | identifier
  | string
  | openParen
  | closeParen
  | openCurly
  | closeCurly
  | openSquare
  | closeSquare
  | terminator
  | doubleColon
  | star
  | sigil
  | ampersand
  | leftArrow
  | dot
  | comma
  deriving DecidableEq

namespace TokenKind

def all : List TokenKind :=
  [absent,character,forwardSlash,keyword,identifier,string,openParen,closeParen,openCurly,
    closeCurly,openSquare,closeSquare,terminator,doubleColon,star,sigil,ampersand,leftArrow,
    dot,comma]

theorem mem_all (k : TokenKind) : k ∈ all := by cases k <;> decide

/-- Whether a newline right after a token of this kind ends the statement. -/
def mayEndStatement : TokenKind → Bool
  | identifier | string | closeParen | closeCurly | closeSquare => true
  | _ => false

/-- The kind that closes a group which this kind opens. -/
def closer : TokenKind → Option TokenKind
  | openParen => some closeParen
  | openCurly => some closeCurly
  | openSquare => some closeSquare
  | _ => none

/-- The bytes that are a token each. The slash is not among them, since it may open a comment. -/
def punctuation : List (UInt8 × TokenKind) :=
  [(Byte.openParen,openParen),(Byte.closeParen,closeParen),(Byte.openCurly,openCurly),
    (Byte.closeCurly,closeCurly),(Byte.openSquare,openSquare),(Byte.closeSquare,closeSquare),
    (Byte.star,star),(Byte.ampersand,ampersand),(Byte.tilde,sigil),(Byte.dot,dot),
    (Byte.comma,comma)]

def ofByte? (b : UInt8) : Option TokenKind := punctuation.lookup b

theorem mayEndStatement_terminator : terminator.mayEndStatement = false := rfl

theorem closer_ne {k k' : TokenKind} (h : k.closer = some k') : k ≠ k' := by
  cases k <;> simp [closer] at h <;> simp [← h]

end TokenKind

end SourceTags
