import SourceTags.Proofs.TokenList

/-! # What a stream gives first

A stream gives some tokens one after another and goes on from the place after them. For as long as it gives them
it goes like the list of just these tokens, so a routine that comes to an end within the list leaves the stream at
the same place. A pass is a stream too: reading from it changes what is left to read and nothing else.
-/
namespace SourceTags
open TokenStream

variable {τ : Type} [TokenStream τ]

/-- The stream gives the tokens in order, and the second stream is what follows them. -/
inductive Gives : τ → List Token → τ → Prop
  | nil {s} : Gives s [] s
  | cons {s s' s'' t ts} : advance s = .token t s' → Gives s' ts s'' → Gives s (t :: ts) s''

namespace Gives

variable {s s' s'' : τ} {ts us : List Token}

theorem append (h : Gives s ts s') (h' : Gives s' us s'') : Gives s (ts ++ us) s'' := by
  induction h with
  | nil => exact h'
  | cons ha _ ih => exact .cons ha (ih h')

theorem split (h : Gives s (ts ++ us) s'') : ∃ s', Gives s ts s' ∧ Gives s' us s'' := by
  induction ts generalizing s with
  | nil => exact ⟨s,.nil,h⟩
  | cons t ts ih =>
    cases h with
    | cons ha h =>
      obtain ⟨s',hts,hus⟩ := ih h
      exact ⟨s',.cons ha hts,hus⟩

theorem unique (h : Gives s ts s') (h' : Gives s ts s'') : s' = s'' := by
  induction h with
  | nil =>
    cases h'
    rfl
  | cons ha _ ih =>
    cases h' with
    | cons ha' h' =>
      obtain ⟨-,rfl⟩ := Reading.token.inj (ha.symm.trans ha')
      exact ih h'

theorem tokens_eq (h : Gives s ts s') : tokens s = ts ++ tokens s' := by
  induction h with
  | nil => rfl
  | cons ha _ ih => rw [tokens_token ha,ih,List.cons_append]

theorem remaining_add_length_le (h : Gives s ts s') : remaining s' + ts.length ≤ remaining s := by
  induction h with
  | nil => exact Nat.le_refl _
  | cons ha _ ih =>
    have hlt := remaining_advance ha
    rw [List.length_cons]
    omega

theorem simulation (h : Gives s us s'') :
    Simulation Eq (fun (ts : List Token) (z : τ) => ∃ passed, us = passed ++ ts ∧ Gives s passed z) False where
  kind ht := congrArg _ ht
  keyword ht := congrArg _ ht
  advance := by
    rintro ts z ⟨passed,rfl,hz⟩
    cases ts with
    | nil => exact Reading.Follows.of_not id ..
    | cons t ts =>
      obtain ⟨z',hz',hrest⟩ := h.split
      obtain rfl := hz.unique hz'
      cases hrest with
      | cons ha _ =>
        rw [ha]
        exact ⟨rfl,passed ++ [t],by simp,hz.append (.cons ha .nil)⟩

end Gives

/-- A stream gives every beginning of the list of its tokens. -/
theorem exists_gives {s : τ} {ts us : List Token} (h : tokens s = ts ++ us) :
    ∃ s', Gives s ts s' ∧ tokens s' = us := by
  induction ts generalizing s with
  | nil => exact ⟨s,.nil,h⟩
  | cons t ts ih =>
    cases ha : advance s with
    | endOfInput left rest =>
      rw [tokens_endOfInput ha] at h
      contradiction
    | token t' rest =>
      rw [tokens_token ha] at h
      obtain ⟨rfl,hrest⟩ := List.cons.inj h
      obtain ⟨s',hs',hus⟩ := ih hrest
      exact ⟨s',.cons ha hs',hus⟩

theorem Reading.Follows.of_token {α β : Type} {R E : α → β → Prop} {together : Prop} {r : Reading α} {r' : Reading β}
    {t : Token} {a : α} (h : Follows Eq R E together r r') (hr : r = token t a) : ∃ b, r' = token t b ∧ R a b := by
  rw [hr] at h
  cases r' with
  | endOfInput => exact h.elim
  | token t' b =>
    obtain ⟨rfl,hb⟩ := h
    exact ⟨b,rfl,hb⟩

instance : TokenStream (Pass τ) where
  advance p := (advance p.input).map p.withInput
  remaining p := remaining p.input
  remaining_advance := by
    intro p q t h
    cases ha : advance p.input with
    | endOfInput =>
      rw [ha] at h
      contradiction
    | token u rest =>
      rw [ha] at h
      obtain ⟨-,rfl⟩ := Reading.token.inj h
      exact remaining_advance ha

theorem Gives.pass {s s' : τ} {ts : List Token} (h : Gives s ts s') (p : Pass τ) :
    Gives (p.withInput s) ts (p.withInput s') := by
  induction h with
  | nil => exact .nil
  | @cons s s' s'' t ts ha _ ih =>
    have hp : advance (p.withInput s) = .token t (p.withInput s') := by
      change (advance s).map (p.withInput s).withInput = _
      rw [ha]
      rfl
    exact .cons hp ih

end SourceTags
