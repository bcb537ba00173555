/-! # Keywords

Words with a meaning of their own. Only three introduce declarations and four matter inside types; the
others are known so that they are not taken for identifiers.
-/
namespace SourceTags

inductive Keyword where
  | kwUse
  | kwMut
  | kwType
  | kwLet
  | kwFn
  | kwEnum
  | kwStruct
  | kwTrait
  | kwImpl
  | kwMod
  | kwStatic
  | kwMacroRules
  deriving DecidableEq

namespace Keyword

def all : List Keyword :=
  [kwUse,kwMut,kwType,kwLet,kwFn,kwEnum,kwStruct,kwTrait,kwImpl,kwMod,kwStatic,kwMacroRules]

theorem mem_all (k : Keyword) : k ∈ all := by cases k <;> decide

/-- The last spelling ends in a byte that no word continues with, so no source has it as a word. -/
def spelling : Keyword → String
  | kwUse => "use"
  | kwMut => "mut"
  | kwType => "type"
  | kwLet => "let"
  | kwFn => "fn"
  | kwEnum => "enum"
  | kwStruct => "struct"
  | kwTrait => "trait"
  | kwImpl => "impl"
  | kwMod => "mod"
  | kwStatic => "static"
  | kwMacroRules => "macro_rules!"

end Keyword

end SourceTags
