import SourceTags.Tag.Basic
import SourceTags.Token.Stream

/-! # A pass over an input

A pass holds what is left to read of an input, the settings, and what it has reported: the tags, after any
that were there before, and their number.
-/
namespace SourceTags

structure Pass (τ : Type) where
  input : τ
  settings : TagSettings
  tags : Array Tag
  count : Nat

namespace Pass

variable {τ : Type}

/-- A pass that adds its tags to the ones given. -/
def start (settings : TagSettings) (tags : Array Tag) (input : τ) : Pass τ := ⟨input,settings,tags,0⟩

def withInput (p : Pass τ) (input : τ) : Pass τ := { p with input }

/-- Reports the tags that the settings want for a name. -/
def report (p : Pass τ) (kind : DeclarationKind) (name : Token) : Pass τ :=
  let found := p.settings.tagsFor kind name
  { p with tags := p.tags ++ found, count := p.count + found.length }

@[simp] theorem input_withInput (p : Pass τ) (s : τ) : (p.withInput s).input = s := rfl

@[simp] theorem input_report (p : Pass τ) (kind : DeclarationKind) (name : Token) :
    (p.report kind name).input = p.input := rfl

@[simp] theorem withInput_withInput (p : Pass τ) (s s' : τ) : (p.withInput s).withInput s' = p.withInput s' := rfl

end Pass

end SourceTags
