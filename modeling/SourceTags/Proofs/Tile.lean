import SourceTags.Token.Basic

/-! # Tiles of a source

The bytes of a source fall into tiles: blanks, comments and dropped pairs, which stand for no token, and
the stretches that spell one token each. Whether a tile may stand somewhere depends on the bytes after it
alone. From a row of tiles the tokens are read off: a terminator comes with the first tile that breaks the
line after a token which may end a statement.
-/
namespace SourceTags

/-- A byte of a literal, with or without a backslash before it. -/
inductive LiteralByte where
  | plain (b : UInt8)
  | escaped (b : UInt8)
  deriving DecidableEq

namespace LiteralByte

def bytes : LiteralByte → List UInt8
  | plain b => [b]
  | escaped b => [Byte.backslash,b]

def value : LiteralByte → UInt8
  | plain b | escaped b => b

/-- A byte that stands for itself neither closes the literal nor protects the next one; between backticks
nothing protects. -/
def Fits (delimiter : UInt8) : LiteralByte → Prop
  | plain b => b ≠ delimiter ∧ (b = Byte.backslash → delimiter = Byte.backtick)
  | escaped _ => delimiter ≠ Byte.backtick

instance (delimiter : UInt8) : (u : LiteralByte) → Decidable (u.Fits delimiter)
  | plain b => inferInstanceAs (Decidable (b ≠ delimiter ∧ (b = Byte.backslash → delimiter = Byte.backtick)))
  | escaped _ => inferInstanceAs (Decidable (delimiter ≠ Byte.backtick))

end LiteralByte

inductive Tile where
  | blank (b : UInt8)
  | lineComment (text : List UInt8)
  | blockComment (text : List UInt8) (closed : Bool)
  | dropped (b : UInt8)
  | word (first : UInt8) (more : List UInt8)
  | literal (delimiter : UInt8) (body : List LiteralByte) (closed : Bool)
  | punctuation (b : UInt8) (kind : TokenKind)
  | slash
  | arrow
  deriving DecidableEq

namespace Tile

def bytes : Tile → List UInt8
  | blank b => [b]
  | lineComment text => Byte.slash :: Byte.slash :: (text ++ [Byte.newline])
  | blockComment text closed =>
    Byte.slash :: Byte.star :: (text ++ if closed then [Byte.star,Byte.slash] else [])
  | dropped b => [Byte.less,b]
  | word first more => first :: more
  | literal delimiter body closed =>
    delimiter :: (body.flatMap LiteralByte.bytes ++ if closed then [delimiter] else [])
  | punctuation b _ => [b]
  | slash => [Byte.slash]
  | arrow => [Byte.less,Byte.dash]

def StartsWord (b : UInt8) : Prop :=
  Byte.isBlank b = false ∧ b ≠ Byte.slash ∧ b ≠ Byte.less ∧ Byte.isDelimiter b = false ∧
    TokenKind.ofByte? b = none

instance (b : UInt8) : Decidable (StartsWord b) :=
  inferInstanceAs (Decidable (_ ∧ _ ∧ _ ∧ _ ∧ _))

def IsWordText : List UInt8 → Prop
  | [] => False
  | first :: more => StartsWord first ∧ ∀ b ∈ more, Byte.isWord b = true

instance : (text : List UInt8) → Decidable (IsWordText text)
  | [] => inferInstanceAs (Decidable False)
  | first :: more => inferInstanceAs (Decidable (StartsWord first ∧ ∀ b ∈ more, Byte.isWord b = true))

def closer : List UInt8 := [Byte.star,Byte.slash]

/-- Whether the tile may stand before `rest`. A word and a lone slash end where the next byte would not go
on with them. A comment that is not closed, and a literal that is not, go to the end of the source. -/
def Fits (rest : List UInt8) : Tile → Prop
  | blank b => Byte.isBlank b = true
  | lineComment text => Byte.newline ∉ text
  | blockComment text true => ¬closer <:+: text ++ [Byte.star]
  | blockComment text false => ¬closer <:+: text ∧ rest = []
  | dropped b => b ≠ Byte.dash
  | word first more =>
    StartsWord first ∧ (∀ b ∈ more, Byte.isWord b = true) ∧ ∀ b ∈ rest.head?, Byte.isWord b = false
  | literal delimiter body closed =>
    Byte.isDelimiter delimiter = true ∧ (∀ u ∈ body, u.Fits delimiter) ∧ (closed = false → rest = [])
  | punctuation b kind => TokenKind.ofByte? b = some kind
  | slash => ∀ b ∈ rest.head?, b ≠ Byte.slash ∧ b ≠ Byte.star
  | arrow => True

instance (rest : List UInt8) : (t : Tile) → Decidable (t.Fits rest)
  | blank b => inferInstanceAs (Decidable (Byte.isBlank b = true))
  | lineComment text => inferInstanceAs (Decidable (Byte.newline ∉ text))
  | blockComment text true => inferInstanceAs (Decidable (¬closer <:+: text ++ [Byte.star]))
  | blockComment text false => inferInstanceAs (Decidable (¬closer <:+: text ∧ rest = []))
  | dropped b => inferInstanceAs (Decidable (b ≠ Byte.dash))
  | word first more => inferInstanceAs (Decidable
      (StartsWord first ∧ (∀ b ∈ more, Byte.isWord b = true) ∧ ∀ b ∈ rest.head?, Byte.isWord b = false))
  | literal delimiter body closed => inferInstanceAs (Decidable
      (Byte.isDelimiter delimiter = true ∧ (∀ u ∈ body, u.Fits delimiter) ∧ (closed = false → rest = [])))
  | punctuation b kind => inferInstanceAs (Decidable (TokenKind.ofByte? b = some kind))
  | slash => inferInstanceAs (Decidable (∀ b ∈ rest.head?, b ≠ Byte.slash ∧ b ≠ Byte.star))
  | arrow => inferInstanceAs (Decidable True)

/-- The token that the tile spells. -/
def token? (lexicon : Lexicon) (p : Position) : Tile → Option Token
  | word first more => some (.ofWord lexicon (first :: more) p)
  | literal _ body _ => some ⟨.string,none,body.map LiteralByte.value,p⟩
  | punctuation _ kind => some (.bare kind p)
  | slash => some (.bare .forwardSlash p)
  | arrow => some (.bare .leftArrow p)
  | blank _ | lineComment _ | blockComment _ _ | dropped _ => none

/-- Whether the tile ends a line between two tokens. A newline that is dropped does not. -/
def breaksLine : Tile → Bool
  | blank b => b == Byte.newline
  | lineComment _ => true
  | blockComment text _ => text.contains Byte.newline
  | _ => false

def spell (tiles : List Tile) : List UInt8 := tiles.flatMap bytes

def Tiled : List Tile → Prop
  | [] => True
  | t :: rest => t.Fits (spell rest) ∧ Tiled rest

instance : (tiles : List Tile) → Decidable (Tiled tiles)
  | [] => .isTrue trivial
  | t :: rest => @instDecidableAnd (t.Fits (spell rest)) (Tiled rest) _ (instDecidableTiled rest)

def lexemes (lexicon : Lexicon) : Position → List Tile → List (Tile × Token)
  | _, [] => []
  | p, t :: rest =>
    match t.token? lexicon p with
    | some u => (t,u) :: lexemes lexicon (p.pastAll t.bytes) rest
    | none => lexemes lexicon (p.pastAll t.bytes) rest

/-- The tokens of a row of tiles, with the terminators; `ends` says whether a line break before the first
token is one. A terminator has the place of the last byte of the tile that breaks the line. -/
def tokens (lexicon : Lexicon) : Bool → Position → List Tile → List Token
  | _, _, [] => []
  | ends, p, t :: rest =>
    match t.token? lexicon p with
    | some u => u :: tokens lexicon u.kind.mayEndStatement (p.pastAll t.bytes) rest
    | none =>
      if ends && t.breaksLine then
        .bare .terminator (p.pastAll t.bytes.dropLast) :: tokens lexicon false (p.pastAll t.bytes) rest
      else tokens lexicon ends (p.pastAll t.bytes) rest

@[simp] theorem spell_nil : spell [] = [] := rfl

@[simp] theorem spell_cons (t : Tile) (tiles : List Tile) : spell (t :: tiles) = t.bytes ++ spell tiles := rfl

@[simp] theorem spell_append (tiles more : List Tile) : spell (tiles ++ more) = spell tiles ++ spell more :=
  List.flatMap_append

theorem bytes_ne_nil (t : Tile) : t.bytes ≠ [] := by cases t <;> simp [bytes]

theorem spell_eq_nil {tiles : List Tile} : spell tiles = [] ↔ tiles = [] := by
  cases tiles with
  | nil => simp
  | cons t rest => simp [t.bytes_ne_nil]

end Tile

end SourceTags
