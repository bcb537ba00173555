import SourceTags.Declaration.Function
import SourceTags.Declaration.Binding
import SourceTags.Token.Scanner

/-! # Declarations of a source

A pass reads token after token and looks at keywords only: three of them introduce a declaration, which
is read as a whole, and every other token is skipped. A pass ends with its input, wherever that ends.
-/
namespace SourceTags
open TokenStream

namespace Pass

variable {τ : Type} [TokenStream τ]

/-- Reads the declaration that the current token introduces, if it does. -/
def declaration (t : Token) (p : Pass τ) : Reading (Pass τ) :=
  match t.keyword with
  | some .kwFn => p.function t
  | some .kwType => p.binding .typeAlias t
  | some .kwLet => p.binding .binding t
  | _ => .token t p

theorem remaining_declaration {t t' : Token} {p q : Pass τ} (h : p.declaration t = .token t' q) :
    remaining q.input ≤ remaining p.input := by
  unfold declaration at h
  split at h
  · exact remaining_function h
  · exact remaining_binding h
  · exact remaining_binding h
  · obtain ⟨-,rfl⟩ := Reading.token.inj h
    exact Nat.le_refl _

/-- Reads all declarations, and gives the token that the end of the input leaves. -/
def declarations (p : Pass τ) : Token × Pass τ :=
  match _h : advance p.input with
  | .endOfInput left rest => (left,p.withInput rest)
  | .token t rest =>
    match _h' : (p.withInput rest).declaration t with
    | .endOfInput left q => (left,q)
    | .token _ q => declarations q
termination_by remaining p.input
decreasing_by
  exact Nat.lt_of_le_of_lt (remaining_declaration _h') (remaining_advance _h)

theorem declarations_eq (p : Pass τ) :
    p.declarations =
      match advance p.input with
      | .endOfInput left rest => (left,p.withInput rest)
      | .token t rest =>
        match (p.withInput rest).declaration t with
        | .endOfInput left q => (left,q)
        | .token _ q => declarations q := by
  rw [declarations]
  split
  · simp_all
  · next h =>
    rw [h]
    dsimp only
    split <;> simp_all

end Pass

/-- Adds the tags of a source to the ones given, and counts those that it adds. -/
def tagSource {σ : Type} [ByteSource σ] (settings : TagSettings) (lexicon : Lexicon)
    (tags : Array Tag) (source : σ) : Array Tag × Nat :=
  let p := (Pass.start settings tags (Scanner.ofSource source lexicon)).declarations.2
  (p.tags,p.count)

end SourceTags
