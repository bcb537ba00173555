import SourceTags.Tag.Selection
import SourceTags.Token.Basic

/-! # Tags

A tag has the name of a declaration, its kind, and the position of the name. Settings say which kinds are
reported, and whether each tag is followed by a second one under a name that a scope qualifies.
-/
namespace SourceTags

structure Tag where
  name : String
  kind : DeclarationKind
  pos : Position
  deriving DecidableEq

namespace Tag

def ofToken (kind : DeclarationKind) (t : Token) : Tag := ⟨t.name,kind,t.pos⟩

def qualify (scope : String) (tag : Tag) : Tag := { tag with name := scope ++ "." ++ tag.name }

end Tag

structure TagSettings where
  kinds : Selection
  qualified : Bool
  scope : Option String
  deriving DecidableEq

namespace TagSettings

/-- All kinds, and no qualified names. -/
def standard : TagSettings := ⟨.all,false,none⟩

/-- The scope that names are qualified with. An empty one qualifies nothing. -/
def qualifier (s : TagSettings) : Option String :=
  if s.qualified then s.scope.filter (!·.isEmpty) else none

/-- The tags for a name that is declared as a thing of the given kind. -/
def tagsFor (s : TagSettings) (kind : DeclarationKind) (name : Token) : List Tag :=
  if s.kinds.contains kind then
    let tag := Tag.ofToken kind name
    match s.qualifier with
    | some scope => [tag,tag.qualify scope]
    | none => [tag]
  else []

theorem tagsFor_standard (kind : DeclarationKind) (name : Token) :
    standard.tagsFor kind name = [Tag.ofToken kind name] := by
  simp [tagsFor,qualifier,standard]

end TagSettings

end SourceTags
