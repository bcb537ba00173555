import SourceTags.Declaration.Pass
import SourceTags.Declaration.TypeExpr

/-! # Binding and type declarations

One or more names follow the keyword, with commas between them, and the rest of the declaration, which
starts with a type, is skipped up to a terminator outside all groups. In round brackets stands either a
tuple of names, which a bracket right after a name closes, or a list of such declarations, which a bracket
in the place of a name closes. Every name is reported as soon as it has been read.
-/
namespace SourceTags
open TokenStream

variable {τ : Type} [TokenStream τ]

/-- Reads the token in the place of a name, stepping over one `mut`. -/
def readBindingName (s : τ) : Reading τ :=
  (advance s).andThen fun t rest => if t.hasKeyword .kwMut then advance rest else .token t rest

theorem remaining_readBindingName {t : Token} {s s' : τ} (h : readBindingName s = .token t s') :
    remaining s' < remaining s := by
  obtain ⟨_,_,hr,h⟩ := Reading.andThen_eq_token.1 h
  have := remaining_advance hr
  split at h
  · exact Nat.lt_trans (remaining_advance h) this
  · obtain ⟨-,rfl⟩ := Reading.token.inj h
    exact this

/-- What follows a name: another name of the same declaration, or the token that ends it. -/
inductive AfterName (τ : Type) where
  | name (t : Token) (rest : τ)
  | done (t : Token) (rest : τ)
  | endOfInput (left : Token) (rest : τ)

/-- The name after a comma. -/
def afterComma (comma : Token) (s : τ) : AfterName τ :=
  match readBindingName s with
  | .endOfInput _ rest => .endOfInput comma rest
  | .token name rest => .name name rest

/-- In a group, a terminator is followed by another name or by the end of the group. -/
def afterTerminator (terminator : Token) (s : τ) : AfterName τ :=
  match readBindingName s with
  | .endOfInput _ rest => .endOfInput terminator rest
  | .token name rest =>
    if name.kind = .closeParen then .done terminator rest else .name name rest

/-- Reads on from a name, which stands in a group or does not. -/
def afterName (grouped : Bool) (s : τ) : AfterName τ :=
  match advance s with
  | .endOfInput left rest => .endOfInput left rest
  | .token t rest =>
    if t.kind = .comma then afterComma t rest
    else
      match (skipTypeExpr t rest).andThen seekTerminator with
      | .endOfInput left rest => .endOfInput left rest
      | .token last rest =>
        if grouped && t.kind != .closeParen then afterTerminator last rest else .done last rest

/-- The declaration goes on, or ends, with less than `n` to read. -/
def AfterName.IsBelow (n : Nat) : AfterName τ → Prop
  | name _ rest | done _ rest => remaining rest < n
  | endOfInput _ _ => True

theorem isBelow_afterComma {n : Nat} {s : τ} (t : Token) (h : remaining s < n) :
    (afterComma t s).IsBelow n := by
  unfold afterComma
  split
  · trivial
  · next hn => exact Nat.lt_trans (remaining_readBindingName hn) h

theorem isBelow_afterTerminator {n : Nat} {s : τ} (t : Token) (h : remaining s < n) :
    (afterTerminator t s).IsBelow n := by
  unfold afterTerminator
  split
  · trivial
  · next hn =>
    have := Nat.lt_trans (remaining_readBindingName hn) h
    split <;> exact this

theorem isBelow_afterName (grouped : Bool) (s : τ) : (afterName grouped s).IsBelow (remaining s) := by
  unfold afterName
  split
  · trivial
  · next hr =>
    have hr := remaining_advance hr
    split
    · exact isBelow_afterComma _ hr
    · split
      · trivial
      · next hs =>
        obtain ⟨_,_,ht,hs⟩ := Reading.andThen_eq_token.1 hs
        have hs := Nat.lt_of_le_of_lt
          (Nat.le_trans (remaining_seekTerminator hs) (remaining_skipTypeExpr ht)) hr
        split
        · exact isBelow_afterTerminator _ hs
        · exact hs

theorem remaining_afterName {grouped : Bool} {s rest : τ} {t : Token}
    (h : afterName grouped s = .name t rest ∨ afterName grouped s = .done t rest) :
    remaining rest < remaining s := by
  have hb := isBelow_afterName grouped s
  rcases h with h | h <;> rw [h] at hb <;> exact hb

namespace Pass

/-- Reports a name, and the names after it in the same declaration. -/
def names (kind : DeclarationKind) (grouped : Bool) (name : Token) (p : Pass τ) : Reading (Pass τ) :=
  match _h : afterName grouped p.input with
  | .endOfInput left rest => .endOfInput left ((p.report kind name).withInput rest)
  | .done t rest => .token t ((p.report kind name).withInput rest)
  | .name next rest => names kind grouped next ((p.report kind name).withInput rest)
termination_by remaining p.input
decreasing_by exact remaining_afterName (.inl _h)

theorem names_eq (kind : DeclarationKind) (grouped : Bool) (name : Token) (p : Pass τ) :
    names kind grouped name p =
      match afterName grouped p.input with
      | .endOfInput left rest => .endOfInput left ((p.report kind name).withInput rest)
      | .done t rest => .token t ((p.report kind name).withInput rest)
      | .name next rest => names kind grouped next ((p.report kind name).withInput rest) := by
  rw [names]
  split <;> simp_all

theorem remaining_names {kind : DeclarationKind} {grouped : Bool} {name t : Token} {p q : Pass τ}
    (h : names kind grouped name p = .token t q) : remaining q.input < remaining p.input := by
  fun_induction names kind grouped name p with
  | case1 => contradiction
  | case2 _ _ _ _ ha =>
    obtain ⟨-,rfl⟩ := Reading.token.inj h
    exact remaining_afterName (.inr ha)
  | case3 _ _ _ _ ha ih => exact Nat.lt_trans (ih h) (remaining_afterName (.inl ha))

/-- Reads a declaration after its keyword. The names are kept apart from the current token. -/
def binding (kind : DeclarationKind) (t : Token) (p : Pass τ) : Reading (Pass τ) :=
  match readBindingName p.input with
  | .endOfInput _ rest => .endOfInput t (p.withInput rest)
  | .token first rest =>
    if first.kind = .openParen then
      match readBindingName rest with
      | .endOfInput _ rest => .endOfInput t (p.withInput rest)
      | .token name rest => names kind true name (p.withInput rest)
    else names kind false first (p.withInput rest)

theorem remaining_binding {kind : DeclarationKind} {t t' : Token} {p q : Pass τ}
    (h : p.binding kind t = .token t' q) : remaining q.input ≤ remaining p.input := by
  unfold binding at h
  split at h
  · contradiction
  · next hf =>
    have := remaining_readBindingName hf
    split at h
    · split at h
      · contradiction
      · next hn =>
        have := remaining_readBindingName hn
        have := remaining_names h
        simp only [input_withInput] at this
        omega
    · have := remaining_names h
      simp only [input_withInput] at this
      omega

end Pass

end SourceTags
