/-! # Kinds of declarations

A declaration is that of a function, a binding or a type. A letter stands for each kind in tag files and on
the command line.
-/
namespace SourceTags

inductive DeclarationKind where
  | function
  | binding
  | typeAlias
  deriving DecidableEq

namespace DeclarationKind

def all : List DeclarationKind := [function,binding,typeAlias]

theorem mem_all (k : DeclarationKind) : k ∈ all := by cases k <;> decide

def letter : DeclarationKind → Char
  | function => 'f'
  | binding => 'l'
  | typeAlias => 't'

/-- The word that introduces a declaration of this kind. -/
def word : DeclarationKind → String
  | function => "fn"
  | binding => "let"
  | typeAlias => "type"

def heading : DeclarationKind → String
  | function => "functions"
  | binding => "let"
  | typeAlias => "types"

def ofLetter? (c : Char) : Option DeclarationKind := all.find? (·.letter == c)

theorem ofLetter?_letter (k : DeclarationKind) : ofLetter? k.letter = some k := by cases k <;> decide

theorem letter_of_ofLetter? {c : Char} {k : DeclarationKind} (h : ofLetter? c = some k) : k.letter = c := by
  simpa using List.find?_some h

end DeclarationKind

end SourceTags
