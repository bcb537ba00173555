import SourceTags.Tag.Basic

/-! # Lines of a tag file

A tag is written on one line: its name, the file, the line number with a mark that ends it, and the
letter of the kind, with a tab between each and the next.
-/
namespace SourceTags

def Tag.line (file : String) (tag : Tag) : String :=
  tag.name ++ "\t" ++ file ++ "\t" ++ toString tag.pos.line ++ ";\"\t"
    ++ String.singleton tag.kind.letter ++ "\n"

def Tag.lines (file : String) (tags : List Tag) : String := String.join (tags.map (Tag.line file))

/-- One line for each kind, with its letter and what it stands for. -/
def kindLines : String :=
  String.join (DeclarationKind.all.map fun k => String.singleton k.letter ++ "  " ++ k.heading ++ "\n")

end SourceTags
