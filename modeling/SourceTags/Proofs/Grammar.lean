import SourceTags.Proofs.TokenList
import SourceTags.Declaration.TypeExpr

/-! # Bracket groups and types as lists of tokens

What a group and a type are, said without reading: a group is a pair of brackets around tokens that are
balanced in brackets of that kind alone, and types are given by their grammar. The readers of groups and
of types pass exactly such lists and stop at the token after them.
-/
namespace SourceTags
open TokenStream

/-- Brackets of one kind match; every other token stands for itself, brackets of other kinds too. -/
inductive Balanced (opening closing : TokenKind) : List Token → Prop
  | nil : Balanced opening closing []
  | token {t w} : t.kind ≠ opening → t.kind ≠ closing → Balanced opening closing w →
      Balanced opening closing (t :: w)
  | group {o w c w'} : o.kind = opening → Balanced opening closing w → c.kind = closing →
      Balanced opening closing w' → Balanced opening closing (o :: (w ++ c :: w'))

/-- Two matching brackets, the first of the given kind, and balanced tokens between them. -/
inductive Group (opening : TokenKind) : List Token → Prop
  | intro {closing o w c} : opening.closer = some closing → o.kind = opening → Balanced opening closing w →
      c.kind = closing → Group opening (o :: (w ++ [c]))

/-- How a type ends, which decides on the token that may follow it. -/
inductive TypeEnd where
  | name
  | signature
  | closed

/-- A dot would go on with a name, and the start of a type with a signature that has no result. -/
def TypeEnd.Admits : TypeEnd → Token → Prop
  | name, t => t.kind ≠ .dot
  | signature, t => TypeForm.ofToken t = .missing
  | closed, _ => True

inductive IsType : List Token → TypeEnd → Prop
  | group {g} : Group .openParen g → IsType g .closed
  | name {t} : t.kind = .identifier → IsType [t] .name
  | qualified {t d u} : t.kind = .identifier → d.kind = .dot → u.kind = .identifier →
      IsType [t,d,u] .closed
  | body {t g} : t.hasKeyword .kwStruct ∨ t.hasKeyword .kwTrait ∨ t.hasKeyword .kwEnum →
      Group .openCurly g → IsType (t :: g) .closed
  | element {g w e} : Group .openSquare g → IsType w e → IsType (g ++ w) e
  | sign {t w e} : t.kind = .star ∨ t.kind = .ampersand ∨ t.kind = .sigil → IsType w e → IsType (t :: w) e
  | signature {t g} : t.hasKeyword .kwFn → Group .openParen g → IsType (t :: g) .signature
  | result {t g w e} : t.hasKeyword .kwFn → Group .openParen g → IsType w e → IsType (t :: (g ++ w)) e

variable {opening closing : TokenKind} {t : Token} {g w rest : List Token}

theorem closeGroup_balanced (hne : closing ≠ opening) (hw : Balanced opening closing w) (inner : Nat) :
    closeGroup opening closing inner (w ++ rest) = closeGroup opening closing inner rest := by
  induction hw generalizing inner rest with
  | nil => rfl
  | token ho hc _ ih => rw [List.cons_append,closeGroup_token (advance_cons ..),if_neg ho,if_neg hc,ih]
  | @group o w c w' ho _ hc _ ihw ihw' =>
    have hco : c.kind ≠ opening := hc ▸ hne
    rw [List.cons_append,List.append_assoc,closeGroup_token (advance_cons ..),if_pos ho,ihw,List.cons_append,
      closeGroup_token (advance_cons ..),if_neg hco,if_pos hc]
    exact ihw' inner

theorem skipGroup_group (hg : Group opening (t :: g)) : skipGroup t (g ++ rest) = advance rest := by
  cases hg with
  | @intro closing _ w c hcloser ho hw hc =>
    have hne : closing ≠ opening := (TokenKind.closer_ne hcloser).symm
    unfold skipGroup
    rw [ho,hcloser]
    dsimp only
    rw [List.append_assoc,closeGroup_balanced hne hw,List.singleton_append,
      closeGroup_token (advance_cons ..),if_neg (hc ▸ hne),if_pos hc]

theorem readGroup_group (hg : Group opening g) : readGroup (g ++ rest) = advance rest := by
  cases hg with
  | intro hcloser ho hw hc =>
    rw [List.cons_append]
    exact skipGroup_group (.intro hcloser ho hw hc)

/-- Tokens that close groups opened before them, so many as `inner` says, and are balanced apart from that. -/
inductive Closes (opening closing : TokenKind) : Nat → List Token → Prop
  | balanced {u} : Balanced opening closing u → Closes opening closing 0 u
  | close {inner u c v} : Balanced opening closing u → c.kind = closing → Closes opening closing inner v →
      Closes opening closing (inner + 1) (u ++ c :: v)

theorem Closes.token {inner : Nat} (ho : t.kind ≠ opening) (hc : t.kind ≠ closing)
    (h : Closes opening closing inner w) : Closes opening closing inner (t :: w) := by
  cases h with
  | balanced hw => exact .balanced (.token ho hc hw)
  | close hw hc' h => exact .close (.token ho hc hw) hc' h

theorem Closes.open {inner : Nat} (ho : t.kind = opening) (h : Closes opening closing (inner + 1) w) :
    Closes opening closing inner (t :: w) := by
  cases h with
  | @close _ u c v hu hc h =>
    cases h with
    | balanced hv => exact .balanced (.group ho hu hc hv)
    | @close _ v' c' w' hv hc' h =>
      have hw : Balanced opening closing (t :: (u ++ c :: v')) := .group ho hu hc hv
      have h' := Closes.close hw hc' h
      rw [List.cons_append,List.append_assoc,List.cons_append] at h'
      exact h'

/-- What is passed up to the end of a group closes all groups inside it. -/
theorem closes_of_closeGroup {inner : Nat} {s : List Token}
    (h : closeGroup opening closing inner s = .token t rest) :
    ∃ w c, s = w ++ c :: t :: rest ∧ Closes opening closing inner w ∧ c.kind = closing := by
  induction s generalizing inner with
  | nil =>
    rw [closeGroup_endOfInput advance_nil] at h
    contradiction
  | cons u s ih =>
    rw [closeGroup_token (advance_cons ..)] at h
    by_cases ho : u.kind = opening
    · rw [if_pos ho] at h
      obtain ⟨w,c,rfl,hw,hc⟩ := ih h
      exact ⟨u :: w,c,rfl,hw.open ho,hc⟩
    rw [if_neg ho] at h
    by_cases hu : u.kind = closing
    · rw [if_pos hu] at h
      cases inner with
      | zero =>
        obtain rfl := eq_cons_of_advance h
        exact ⟨[],u,rfl,.balanced .nil,hu⟩
      | succ inner =>
        obtain ⟨w,c,rfl,hw,hc⟩ := ih h
        exact ⟨u :: w,c,rfl,.close .nil hu hw,hc⟩
    · rw [if_neg hu] at h
      obtain ⟨w,c,rfl,hw,hc⟩ := ih h
      exact ⟨u :: w,c,rfl,hw.token ho hu,hc⟩

theorem group_of_skipGroup {u : Token} {s : List Token} (hc : u.kind.closer = some closing)
    (h : skipGroup u s = .token t rest) : ∃ g, s = g ++ t :: rest ∧ Group u.kind (u :: g) := by
  unfold skipGroup at h
  rw [hc] at h
  obtain ⟨w,c,rfl,hw,hkind⟩ := closes_of_closeGroup h
  cases hw with
  | balanced hw =>
    refine ⟨w ++ [c],?_,.intro hc rfl hw hkind⟩
    rw [List.append_assoc,List.singleton_append]

theorem group_of_readGroup {s : List Token} (h : readGroup s = .token t rest) :
    s = t :: rest ∧ t.kind.closer = none ∨ ∃ k g, s = g ++ t :: rest ∧ Group k g := by
  obtain ⟨u,s',ha,hskip⟩ := Reading.andThen_eq_token.mp h
  obtain rfl := eq_cons_of_advance ha
  cases hc : u.kind.closer with
  | none =>
    rw [skipGroup_of_closer_eq_none hc] at hskip
    obtain ⟨rfl,rfl⟩ := Reading.token.inj hskip
    exact .inl ⟨rfl,hc⟩
  | some closing =>
    obtain ⟨g,rfl,hg⟩ := group_of_skipGroup hc hskip
    exact .inr ⟨u.kind,u :: g,rfl,hg⟩

theorem readGroup_token (ht : t.kind.closer = none) : readGroup (t :: rest) = .token t rest :=
  skipGroup_of_closer_eq_none ht rest

namespace TypeForm

theorem ofToken_identifier (h : t.kind = .identifier) : ofToken t = .name := by simp [ofToken,h]

theorem ofToken_openParen (h : t.kind = .openParen) : ofToken t = .group := by simp [ofToken,h]

theorem ofToken_openSquare (h : t.kind = .openSquare) : ofToken t = .element := by simp [ofToken,h]

theorem ofToken_sign (h : t.kind = .star ∨ t.kind = .ampersand ∨ t.kind = .sigil) :
    ofToken t = .sign := by
  rcases h with h | h | h <;> simp [ofToken,h]

theorem ofToken_body (h : t.hasKeyword .kwStruct ∨ t.hasKeyword .kwTrait ∨ t.hasKeyword .kwEnum) :
    ofToken t = .body := by
  simp only [Token.hasKeyword,Bool.and_eq_true,beq_iff_eq] at h
  rcases h with h | h | h <;> simp [ofToken,h.1,h.2]

theorem ofToken_fn (h : t.hasKeyword .kwFn) : ofToken t = .signature := by
  simp only [Token.hasKeyword,Bool.and_eq_true,beq_iff_eq] at h
  simp [ofToken,h.1,h.2]

end TypeForm

theorem skipTypeExpr_missing (h : TypeForm.ofToken t = .missing) (s : List Token) :
    skipTypeExpr t s = .token t s := by
  rw [skipTypeExpr_eq,h]
  rfl

theorem skipTypeExpr_group (ht : TypeForm.ofToken t = .group) (s : List Token) :
    skipTypeExpr t s = skipGroup t s := by
  rw [skipTypeExpr_eq,ht]
  simp only [skipTypeStart,TypeForm.hasInner]
  cases skipGroup t s <;> rfl

theorem skipTypeExpr_element (ht : TypeForm.ofToken t = .element) (s : List Token) :
    skipTypeExpr t s = (skipGroup t s).andThen skipTypeExpr := by
  rw [skipTypeExpr_eq,ht]
  rfl

theorem advance_skipTypeExpr_group (hg : Group .openParen g) :
    (advance (g ++ rest)).andThen skipTypeExpr = advance rest := by
  cases hg with
  | @intro _ o w c hcloser ho hw hc =>
    rw [List.cons_append,advance_cons,Reading.andThen_token,skipTypeExpr_group (TypeForm.ofToken_openParen ho),
      skipGroup_group (.intro hcloser ho hw hc)]

theorem advance_skipTypeExpr_element (hg : Group .openSquare g) :
    (advance (g ++ rest)).andThen skipTypeExpr = (advance rest).andThen skipTypeExpr := by
  cases hg with
  | @intro _ o w c hcloser ho hw hc =>
    rw [List.cons_append,advance_cons,Reading.andThen_token,skipTypeExpr_element (TypeForm.ofToken_openSquare ho),
      skipGroup_group (.intro hcloser ho hw hc)]

theorem skipTypeExpr_sign (ht : TypeForm.ofToken t = .sign) (s : List Token) :
    skipTypeExpr t s = (advance s).andThen skipTypeExpr := by
  rw [skipTypeExpr_eq,ht]
  rfl

theorem skipTypeExpr_signature (ht : TypeForm.ofToken t = .signature) (s : List Token) :
    skipTypeExpr t s = (readGroup s).andThen skipTypeExpr := by
  rw [skipTypeExpr_eq,ht]
  rfl

theorem skipTypeExpr_body (ht : TypeForm.ofToken t = .body) (s : List Token) :
    skipTypeExpr t s = readGroup s := by
  rw [skipTypeExpr_eq,ht]
  simp only [skipTypeStart,TypeForm.hasInner]
  cases readGroup s <;> rfl

theorem skipTypeExpr_name (ht : TypeForm.ofToken t = .name) (s : List Token) :
    skipTypeExpr t s = skipTypeName s := by
  rw [skipTypeExpr_eq,ht]
  simp only [skipTypeStart,TypeForm.hasInner]
  cases skipTypeName s <;> rfl

/-- What is done at the token after a type: nothing, unless the token goes on with the type. -/
def TypeEnd.goOn : TypeEnd → Token → List Token → Reading (List Token)
  | name, t, rest => if t.kind = .dot then (advance rest).andThen fun _ rest => advance rest else .token t rest
  | signature, t, rest => skipTypeExpr t rest
  | closed, t, rest => .token t rest

/-- A type is passed, and what comes then depends on its end and on the token after it alone. -/
theorem advance_skipTypeExpr_goOn {e : TypeEnd} (hw : IsType w e) (t : Token) (rest : List Token) :
    (advance (w ++ t :: rest)).andThen skipTypeExpr = e.goOn t rest := by
  induction hw with
  | group hg => exact advance_skipTypeExpr_group hg
  | name hn =>
    rw [List.singleton_append,advance_cons,Reading.andThen_token,
      skipTypeExpr_name (TypeForm.ofToken_identifier hn)]
    rfl
  | qualified hn hd =>
    rw [List.cons_append,advance_cons,Reading.andThen_token,
      skipTypeExpr_name (TypeForm.ofToken_identifier hn)]
    exact if_pos hd
  | body hk hg =>
    rw [List.cons_append,advance_cons,Reading.andThen_token,
      skipTypeExpr_body (TypeForm.ofToken_body hk),readGroup_group hg,advance_cons]
    rfl
  | element hg _ ih => rw [List.append_assoc,advance_skipTypeExpr_element hg,ih]
  | sign hk _ ih =>
    rw [List.cons_append,advance_cons,Reading.andThen_token,
      skipTypeExpr_sign (TypeForm.ofToken_sign hk),ih]
  | signature hk hg =>
    rw [List.cons_append,advance_cons,Reading.andThen_token,
      skipTypeExpr_signature (TypeForm.ofToken_fn hk),readGroup_group hg,advance_cons,Reading.andThen_token]
    rfl
  | result hk hg _ ih =>
    rw [List.cons_append,List.append_assoc,advance_cons,Reading.andThen_token,
      skipTypeExpr_signature (TypeForm.ofToken_fn hk),readGroup_group hg,ih]

theorem TypeEnd.Admits.goOn {e : TypeEnd} (h : e.Admits t) (rest : List Token) : e.goOn t rest = .token t rest := by
  cases e with
  | name => exact if_neg h
  | signature => exact skipTypeExpr_missing h rest
  | closed => rfl

theorem advance_skipTypeExpr {e : TypeEnd} (hw : IsType w e) (ht : e.Admits t) :
    (advance (w ++ t :: rest)).andThen skipTypeExpr = .token t rest :=
  (advance_skipTypeExpr_goOn hw t rest).trans (ht.goOn rest)

end SourceTags
