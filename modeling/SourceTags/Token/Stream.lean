import SourceTags.Token.Basic

/-! # Streams of tokens

Reading from a stream gives a token and the rest of the stream, or says that the input has ended. Either
way some token is left as the current one: at the end of the input it is an absent token, or the token
that was current before. A routine that reads on from a current token has the same outcome, so routines
are composed by `Reading.andThen`.
-/
namespace SourceTags

inductive Reading (τ : Type) where
  | token (t : Token) (rest : τ)
  | endOfInput (left : Token) (rest : τ)

namespace Reading

variable {τ υ : Type}

def andThen (r : Reading τ) (f : Token → τ → Reading τ) : Reading τ :=
  match r with
  | token t rest => f t rest
  | endOfInput left rest => endOfInput left rest

def map (f : τ → υ) : Reading τ → Reading υ
  | token t rest => token t (f rest)
  | endOfInput left rest => endOfInput left (f rest)

def current : Reading τ → Token
  | token t _ => t
  | endOfInput left _ => left

def rest : Reading τ → τ
  | token _ rest | endOfInput _ rest => rest

@[simp] theorem andThen_token (t : Token) (s : τ) (f : Token → τ → Reading τ) :
    (token t s).andThen f = f t s := rfl

@[simp] theorem andThen_endOfInput (t : Token) (s : τ) (f : Token → τ → Reading τ) :
    (endOfInput t s).andThen f = endOfInput t s := rfl

theorem andThen_assoc (r : Reading τ) (f g : Token → τ → Reading τ) :
    (r.andThen f).andThen g = r.andThen fun t s => (f t s).andThen g := by cases r <;> rfl

theorem andThen_eq_token {r : Reading τ} {f : Token → τ → Reading τ} {t : Token} {s : τ} :
    r.andThen f = token t s ↔ ∃ t' s', r = token t' s' ∧ f t' s' = token t s := by
  cases r with
  | token t' s' => exact ⟨fun h => ⟨t',s',rfl,h⟩,fun ⟨_,_,h,hf⟩ => by cases h; exact hf⟩
  | endOfInput => simp

end Reading

/-- A finite stream: every token that is read lowers `remaining`. -/
class TokenStream (τ : Type) where
  advance : τ → Reading τ
  remaining : τ → Nat
  remaining_advance {s s' : τ} {t : Token} : advance s = .token t s' → remaining s' < remaining s

end SourceTags
