import SourceTags.Declaration.Pass
import SourceTags.Declaration.TypeExpr

/-! # Function declarations

A function has a name, which a group in round brackets may precede, then a group of parameters, a type
of its result and a body in curly brackets, each of which may be missing. Its tag is reported once all
that has been read, so a function that the input cuts short has none.
-/
namespace SourceTags
open TokenStream

variable {τ : Type} [TokenStream τ]

/-- Reads the token in the place of the name, after the receiver if there is one. -/
def readFunctionName (s : τ) : Reading τ :=
  (advance s).andThen fun t rest => if t.kind = .openParen then skipGroup t rest else .token t rest

/-- Skips the body that the current token may open. -/
def skipBody (t : Token) (s : τ) : Reading τ :=
  if t.kind = .openCurly then skipGroup t s else .token t s

/-- Skips what follows the name, and leaves the token after it as the current one. -/
def skipSignature (s : τ) : Reading τ := ((readGroup s).andThen skipTypeExpr).andThen skipBody

theorem remaining_readFunctionName {t : Token} {s s' : τ} (h : readFunctionName s = .token t s') :
    remaining s' < remaining s := by
  obtain ⟨_,_,hr,h⟩ := Reading.andThen_eq_token.1 h
  have := remaining_advance hr
  split at h
  · exact Nat.lt_of_le_of_lt (remaining_skipGroup h) this
  · obtain ⟨-,rfl⟩ := Reading.token.inj h
    exact this

theorem remaining_skipSignature {t : Token} {s s' : τ} (h : skipSignature s = .token t s') :
    remaining s' < remaining s := by
  obtain ⟨_,_,h',hb⟩ := Reading.andThen_eq_token.1 h
  obtain ⟨_,_,hg,ht⟩ := Reading.andThen_eq_token.1 h'
  have := remaining_readGroup hg
  have := remaining_skipTypeExpr ht
  unfold skipBody at hb
  split at hb
  · have := remaining_skipGroup hb
    omega
  · obtain ⟨-,rfl⟩ := Reading.token.inj hb
    omega

namespace Pass

/-- Reads a function declaration after its keyword. The name is kept apart from the current token,
which stays as it was where no declaration follows, as in the type of a field. -/
def function (t : Token) (p : Pass τ) : Reading (Pass τ) :=
  match readFunctionName p.input with
  | .endOfInput _ rest => .endOfInput t (p.withInput rest)
  | .token name rest =>
    if name.kind = .identifier then
      match skipSignature rest with
      | .endOfInput left rest => .endOfInput left (p.withInput rest)
      | .token t' rest => .token t' ((p.withInput rest).report .function name)
    else .token t (p.withInput rest)

theorem remaining_function {t t' : Token} {p q : Pass τ} (h : p.function t = .token t' q) :
    remaining q.input ≤ remaining p.input := by
  unfold function at h
  split at h
  · contradiction
  · next hn =>
    have := remaining_readFunctionName hn
    split at h
    · split at h
      · contradiction
      · next hs =>
        have := remaining_skipSignature hs
        obtain ⟨-,rfl⟩ := Reading.token.inj h
        simp only [input_report,input_withInput]
        omega
    · obtain ⟨-,rfl⟩ := Reading.token.inj h
      exact Nat.le_of_lt this

end Pass

end SourceTags
