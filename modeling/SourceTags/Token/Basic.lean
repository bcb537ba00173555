import SourceTags.Token.Kind
import SourceTags.Token.Lexicon
import SourceTags.Source.Position

/-! # Tokens

A token has a kind, its text and the position of its first byte, and for a keyword also which one it is.
The text is the word itself or the contents of the literal, as bytes, and empty for all other kinds.
-/
namespace SourceTags

structure Token where
  kind : TokenKind
  keyword : Option Keyword
  text : List UInt8
  pos : Position
  deriving DecidableEq

namespace Token

/-- The token before any has been read. -/
def fresh : Token := ⟨.absent,none,[],⟨0,0⟩⟩

instance : Inhabited Token := ⟨fresh⟩

def bare (kind : TokenKind) (pos : Position) : Token := ⟨kind,none,[],pos⟩

/-- A word is a keyword where the lexicon has it, and an identifier elsewhere. -/
def ofWord (lexicon : Lexicon) (text : List UInt8) (pos : Position) : Token :=
  match lexicon.find? text with
  | some k => ⟨.keyword,some k,text,pos⟩
  | none => ⟨.identifier,none,text,pos⟩

def hasKind (t : Token) (kind : TokenKind) : Bool := t.kind == kind

def hasKeyword (t : Token) (k : Keyword) : Bool := t.kind == .keyword && t.keyword == some k

/-- The text as a name that can be shown. -/
def name (t : Token) : String := Utf8.decode t.text

end Token

end SourceTags
