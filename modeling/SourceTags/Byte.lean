/-! # Bytes of a source

Sources are read as bytes and never decoded while they are scanned. The bytes that the scanner
tells apart have names here; every other byte is part of a word.
-/
namespace SourceTags.Byte

abbrev tab : UInt8 := 9
abbrev newline : UInt8 := 10
abbrev carriageReturn : UInt8 := 13
abbrev space : UInt8 := 32
abbrev quote : UInt8 := 34
abbrev hash : UInt8 := 35
abbrev dollar : UInt8 := 36
abbrev ampersand : UInt8 := 38
abbrev apostrophe : UInt8 := 39
abbrev openParen : UInt8 := 40
abbrev closeParen : UInt8 := 41
abbrev star : UInt8 := 42
abbrev comma : UInt8 := 44
abbrev dash : UInt8 := 45
abbrev dot : UInt8 := 46
abbrev slash : UInt8 := 47
abbrev less : UInt8 := 60
abbrev atSign : UInt8 := 64
abbrev openSquare : UInt8 := 91
abbrev backslash : UInt8 := 92
abbrev closeSquare : UInt8 := 93
abbrev underscore : UInt8 := 95
abbrev backtick : UInt8 := 96
abbrev openCurly : UInt8 := 123
abbrev closeCurly : UInt8 := 125
abbrev tilde : UInt8 := 126

def isBlank (b : UInt8) : Bool :=
  b == space || b == tab || b == carriageReturn || b == newline

/-- A literal is opened and closed by the same one of three bytes. -/
def isDelimiter (b : UInt8) : Bool := b == quote || b == apostrophe || b == backtick

def isAlphanumeric (b : UInt8) : Bool :=
  (48 ≤ b && b ≤ 57) || (65 ≤ b && b ≤ 90) || (97 ≤ b && b ≤ 122)

/-- The bytes that continue a word. Every byte of an encoded character beyond ASCII does, so such
a character is never cut. -/
def isWord (b : UInt8) : Bool :=
  isAlphanumeric b || b == dollar || b == atSign || b == underscore || b == hash || 128 ≤ b

theorem isWord_of_high {b : UInt8} (h : 128 ≤ b) : isWord b = true := by simp [isWord,h]

end SourceTags.Byte
