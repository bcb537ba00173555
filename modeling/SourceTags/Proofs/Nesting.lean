import SourceTags.Proofs.NamesInOrder

/-! # Nested tokens

In nested tokens brackets of all kinds match and groups stand inside one another. Where every opening bracket has
its match ahead, skipping a type and seeking a terminator cannot leave the tokens: the terminator that follows them
is the last one at which the search may stop, and it stops at an earlier one only if that stands among the tokens.
Enough closing brackets of all kinds after any tokens give every opening bracket its match.
-/
namespace SourceTags
open TokenStream

namespace TokenKind

variable {k k' l : TokenKind}

theorem closer_of_closer (h : k.closer = some k') : k'.closer = none := by
  cases k <;> simp [closer] at h <;> subst h <;> rfl

theorem closer_inj (h : k.closer = some l) (h' : k'.closer = some l) : k = k' := by
  cases k <;> simp [closer] at h <;> subst h <;> cases k' <;> simp [closer] at h' <;> rfl

end TokenKind

/-- The token opens no group and closes none. -/
def Token.Bracketless (t : Token) : Prop := t.kind.closer = none ∧ ∀ k : TokenKind, k.closer ≠ some t.kind

instance (t : Token) : Decidable t.Bracketless :=
  decidable_of_iff (t.kind.closer = none ∧ ∀ k ∈ TokenKind.all, k.closer ≠ some t.kind)
    (and_congr_right' ⟨fun h k => h k (TokenKind.mem_all k),fun h k _ => h k⟩)

/-- Brackets of all kinds match and are properly nested. The flag says whether terminators may stand outside all
groups; inside a group they always may. -/
inductive Nested : Bool → List Token → Prop
  | nil {breaks} : Nested breaks []
  | token {breaks t w} : t.Bracketless → (breaks = false → t.kind ≠ .terminator) → Nested breaks w →
      Nested breaks (t :: w)
  | group {breaks o w c w'} : o.kind.closer = some c.kind → Nested true w → Nested breaks w' →
      Nested breaks (o :: (w ++ c :: w'))

/-- Every opening bracket among the tokens has its match among them, which counts brackets of its own kind only. -/
def Matched (w : List Token) : Prop :=
  ∀ o s, o :: s <:+ w → o.kind.closer ≠ none → ∃ g rest, o :: s = g ++ rest ∧ Group o.kind g

theorem Balanced.append {opening closing : TokenKind} {w w' : List Token} (h : Balanced opening closing w)
    (h' : Balanced opening closing w') : Balanced opening closing (w ++ w') := by
  induction h with
  | nil => exact h'
  | token ho hc _ ih => exact .token ho hc ih
  | group ho hw hc _ _ ih =>
    rw [List.cons_append,List.append_assoc,List.cons_append]
    exact .group ho hw hc ih

namespace Nested

variable {breaks : Bool} {w : List Token}

theorem balanced {opening closing : TokenKind} (hc : opening.closer = some closing) (h : Nested breaks w) :
    Balanced opening closing w := by
  induction h with
  | nil => exact .nil
  | @token _ t w ht _ _ ih =>
    refine .token ?_ ?_ ih
    · intro hk
      have hnone := ht.1
      rw [hk,hc] at hnone
      contradiction
    · intro hk
      exact ht.2 opening (hk ▸ hc)
  | @group _ o w c w' hoc _ _ ih ih' =>
    by_cases ho : o.kind = opening
    · rw [ho] at hoc
      exact .group ho ih (Option.some.inj (hoc.symm.trans hc)) ih'
    · have hclosing := TokenKind.closer_of_closer hc
      have hopening := TokenKind.closer_of_closer hoc
      refine .token ho ?_ (ih.append (.token ?_ ?_ ih'))
      · intro hk
        rw [hk,hclosing] at hoc
        contradiction
      · intro hk
        rw [hk,hc] at hopening
        contradiction
      · intro hk
        exact ho (TokenKind.closer_inj (hk ▸ hoc) hc)

theorem matched (h : Nested breaks w) : Matched w := by
  induction h with
  | nil =>
    intro o s hs
    exact absurd (List.suffix_nil.mp hs) (by simp)
  | @token _ t w ht _ _ ih =>
    intro o s hs ho
    rcases List.suffix_cons_iff.mp hs with hs | hs
    · obtain ⟨rfl,rfl⟩ := List.cons.inj hs
      exact absurd ht.1 ho
    · exact ih o s hs ho
  | @group _ o' u c w' hoc hu _ ih ih' =>
    intro o s hs ho
    rcases List.suffix_cons_iff.mp hs with hs | hs
    · obtain ⟨rfl,rfl⟩ := List.cons.inj hs
      exact ⟨o :: (u ++ [c]),w',by simp,.intro hoc rfl (hu.balanced hoc) rfl⟩
    rcases List.suffix_or_suffix_of_suffix hs (List.suffix_append u (c :: w')) with hs | ⟨v,hv⟩
    · rcases List.suffix_cons_iff.mp hs with hs | hs
      · obtain ⟨rfl,rfl⟩ := List.cons.inj hs
        exact absurd (TokenKind.closer_of_closer hoc) ho
      · exact ih' o s hs ho
    · cases v with
      | nil =>
        obtain ⟨rfl,rfl⟩ := List.cons.inj hv
        exact absurd (TokenKind.closer_of_closer hoc) ho
      | cons x v =>
        rw [List.cons_append] at hv
        obtain ⟨rfl,rfl⟩ := List.cons.inj hv
        rw [← List.cons_append] at hs
        obtain ⟨g,rest,hg,hgroup⟩ := ih x v ((List.suffix_append_inj_of_length_eq rfl).mp hs).1 ho
        exact ⟨g,rest ++ c :: w',by rw [← List.cons_append,hg,List.append_assoc],hgroup⟩

end Nested

/-- The reading leaves a current token that stands among the tokens or is the one after them. -/
def Reading.StopsBy (w : List Token) (e : Token) (rest : List Token) (r : Reading (List Token)) : Prop :=
  ∃ u v ahead, r = .token u v ∧ ahead <:+ w ∧ u :: v = ahead ++ e :: rest

namespace Reading.StopsBy

variable {w w' rest : List Token} {e : Token} {r : Reading (List Token)} {f : Token → List Token → Reading (List Token)}

theorem mono (h : r.StopsBy w' e rest) (hw : w' <:+ w) : r.StopsBy w e rest := by
  obtain ⟨u,v,ahead,hr,hs,huv⟩ := h
  exact ⟨u,v,ahead,hr,hs.trans hw,huv⟩

theorem andThen (h : r.StopsBy w e rest) (hf : ∀ u v ahead, r = .token u v → ahead <:+ w →
    u :: v = ahead ++ e :: rest → (f u v).StopsBy ahead e rest) : (r.andThen f).StopsBy w e rest := by
  obtain ⟨u,v,ahead,hr,hs,huv⟩ := h
  rw [hr,Reading.andThen_token]
  exact (hf u v ahead hr hs huv).mono hs

end Reading.StopsBy

section Stops

variable {w rest v : List Token} {e u : Token}

theorem Matched.of_suffix {w' : List Token} (h : Matched w) (hs : w' <:+ w) : Matched w' :=
  fun o s ho => h o s (ho.trans hs)

theorem stopsBy_token (h : u :: v = w ++ e :: rest) : (Reading.token u v).StopsBy w e rest :=
  ⟨u,v,w,rfl,List.suffix_rfl,h⟩

theorem stopsBy_advance (w : List Token) (e : Token) (rest : List Token) :
    (advance (w ++ e :: rest)).StopsBy w e rest := by
  cases w with
  | nil => exact stopsBy_token rfl
  | cons t w => exact stopsBy_token rfl

theorem stopsBy_skipGroup (hw : Matched w) (he : e.kind.closer = none) (h : u :: v = w ++ e :: rest) :
    (skipGroup u v).StopsBy w e rest := by
  by_cases hu : u.kind.closer = none
  · rw [skipGroup_of_closer_eq_none hu]
    exact stopsBy_token h
  · cases w with
    | nil =>
      obtain ⟨rfl,-⟩ := List.cons.inj h
      exact absurd he hu
    | cons x w =>
      obtain ⟨rfl,rfl⟩ := List.cons.inj h
      obtain ⟨g,more,hg,hgroup⟩ := hw u w List.suffix_rfl hu
      have hmore : more <:+ u :: w := ⟨g,hg.symm⟩
      cases g with
      | nil => cases hgroup
      | cons y g =>
        obtain ⟨rfl,hrest⟩ := List.cons.inj hg
        rw [hrest] at hmore ⊢
        change (skipGroup u ((g ++ more) ++ e :: rest)).StopsBy _ e rest
        rw [List.append_assoc,skipGroup_group hgroup]
        exact (stopsBy_advance more e rest).mono hmore

theorem stopsBy_readGroup (hw : Matched w) (he : e.kind.closer = none) :
    (readGroup (w ++ e :: rest)).StopsBy w e rest := by
  apply (stopsBy_advance w e rest).andThen
  intro u v ahead _ hs huv
  exact stopsBy_skipGroup (hw.of_suffix hs) he huv

theorem stopsBy_seekTerminator {w v : List Token} {u : Token} (hw : Matched w) (he : e.kind = .terminator)
    (h : u :: v = w ++ e :: rest) : (seekTerminator u v).StopsBy w e rest := by
  by_cases hu : u.kind = .terminator
  · rw [seekTerminator_terminator hu]
    exact stopsBy_token h
  · rw [seekTerminator_of_ne hu]
    cases w with
    | nil =>
      obtain ⟨rfl,-⟩ := List.cons.inj h
      exact absurd he hu
    | cons x w =>
      obtain ⟨rfl,rfl⟩ := List.cons.inj h
      have hs : w <:+ u :: w := List.suffix_cons u w
      have hcloser : e.kind.closer = none := by rw [he]; rfl
      refine ((stopsBy_readGroup (hw.of_suffix hs) hcloser).andThen ?_).mono hs
      intro u' v' ahead hr hahead huv
      have hlt := remaining_readGroup hr
      exact stopsBy_seekTerminator ((hw.of_suffix hs).of_suffix hahead) he huv
termination_by remaining v

/-- The token that is not looked at after a dot is none after the tokens, for a dot is not the last of them. -/
theorem stopsBy_skipTypeName (hd : ∀ t ∈ w.getLast?, t.kind ≠ .dot) (he : e.kind ≠ .dot) :
    (skipTypeName (w ++ e :: rest)).StopsBy w e rest := by
  cases w with
  | nil =>
    refine ⟨e,rest,[],?_,List.suffix_rfl,rfl⟩
    exact if_neg he
  | cons t w =>
    by_cases ht : t.kind = .dot
    · cases w with
      | nil => exact absurd ht (hd t rfl)
      | cons x w =>
        have hname : skipTypeName (t :: x :: w ++ e :: rest) = advance (w ++ e :: rest) := if_pos ht
        rw [hname]
        exact (stopsBy_advance w e rest).mono ((List.suffix_cons x w).trans (List.suffix_cons t _))
    · have hname : skipTypeName (t :: w ++ e :: rest) = .token t (w ++ e :: rest) := if_neg ht
      rw [hname]
      exact stopsBy_token rfl

theorem head?_of_isPrefix {w₀ : List Token} {P : Token → Prop} (hw : ∀ t ∈ w.head?, P t) (hs : w₀ <+: w) :
    ∀ t ∈ w₀.head?, P t := by
  cases w₀ with
  | nil => simp
  | cons t w₀ =>
    obtain ⟨w₁,rfl⟩ := hs
    exact hw

theorem getLast?_of_suffix {ahead : List Token} (hd : ∀ t ∈ w.getLast?, t.kind ≠ .dot) (hs : ahead <:+ w) :
    ∀ t ∈ ahead.getLast?, t.kind ≠ .dot := by
  intro t ht
  obtain ⟨before,rfl⟩ := hs
  apply hd t
  rw [List.getLast?_append,Option.mem_def.mp ht]
  rfl

theorem stopsBy_skipTypeExpr {w v : List Token} {u : Token} (hw : Matched w) (hd : ∀ t ∈ w.getLast?, t.kind ≠ .dot)
    (he : e.kind = .terminator) (h : u :: v = w ++ e :: rest) : (skipTypeExpr u v).StopsBy w e rest := by
  have hcloser : e.kind.closer = none := by rw [he]; rfl
  rw [skipTypeExpr_eq]
  have hstart : (skipTypeStart (.ofToken u) u v).StopsBy w e rest := by
    cases w with
    | nil =>
      obtain ⟨rfl,-⟩ := List.cons.inj h
      have hf : TypeForm.ofToken u = .missing := by simp [TypeForm.ofToken,he]
      rw [hf]
      exact stopsBy_token h
    | cons x w =>
      obtain ⟨rfl,rfl⟩ := List.cons.inj h
      have hs : w <:+ u :: w := List.suffix_cons u w
      cases TypeForm.ofToken u with
      | missing => exact stopsBy_token rfl
      | group | element => exact stopsBy_skipGroup hw hcloser rfl
      | name => exact (stopsBy_skipTypeName (getLast?_of_suffix hd hs) (by simp [he])).mono hs
      | body | signature => exact (stopsBy_readGroup (hw.of_suffix hs) hcloser).mono hs
      | sign => exact (stopsBy_advance w e rest).mono hs
  apply hstart.andThen
  intro u' v' ahead hr hahead huv
  split
  · next hi =>
    have hlt := remaining_skipTypeStart_lt hi hr
    exact stopsBy_skipTypeExpr (hw.of_suffix hahead) (getLast?_of_suffix hd hahead) he huv
  · exact stopsBy_token huv
termination_by remaining v

/-- Skipping a type and seeking a terminator ends by the terminator after the tokens: at that one, or at one among
the tokens, with a tail before it either way. -/
theorem Matched.exists_tail (hw : Matched w) (hd : ∀ t ∈ w.getLast?, t.kind ≠ .dot) (he : e.kind = .terminator) :
    ∃ w₀ e₀ w₁, w ++ [e] = w₀ ++ e₀ :: w₁ ∧ e₀.kind = .terminator ∧ Tail w₀ := by
  obtain ⟨u,v,ahead,hr,hahead,huv⟩ := stopsBy_advance w e []
  have htype := stopsBy_skipTypeExpr (hw.of_suffix hahead) (getLast?_of_suffix hd hahead) he huv
  obtain ⟨e₀,w₁,-,hend,-,-⟩ := htype.andThen fun _ _ _ _ hs => stopsBy_seekTerminator
    ((hw.of_suffix hahead).of_suffix hs) he
  obtain ⟨_,_,-,hseek⟩ := Reading.andThen_eq_token.mp hend
  obtain ⟨w₀,hw₀,htail⟩ := tail_of_skipTypeExpr hend
  have hsame : w ++ [e] = u :: v := by
    cases w with
    | nil =>
      obtain ⟨rfl,rfl⟩ := Reading.token.inj hr
      rfl
    | cons x w =>
      obtain ⟨rfl,rfl⟩ := Reading.token.inj hr
      rfl
  exact ⟨w₀,e₀,w₁,hsame.trans hw₀,kind_of_seekTerminator hseek,htail⟩

end Stops

section Closers

variable {opening closing : TokenKind}

theorem exists_closeGroup (hne : closing ≠ opening) {s : List Token} {inner : ℕ}
    (h : inner + s.countP (·.kind = opening) < s.countP (·.kind = closing)) (x : Token) :
    ∃ t rest, closeGroup opening closing inner (s ++ [x]) = .token t rest := by
  induction s generalizing inner with
  | nil => simp at h
  | cons u s ih =>
    rw [List.countP_cons,List.countP_cons] at h
    rw [List.cons_append,closeGroup_token (advance_cons ..)]
    by_cases ho : u.kind = opening
    · rw [if_pos ho]
      apply ih
      simp only [ho,hne.symm,decide_true,decide_false,if_true] at h
      simp at h
      omega
    rw [if_neg ho]
    by_cases hu : u.kind = closing
    · rw [if_pos hu]
      cases inner with
      | zero =>
        obtain ⟨v,more,hv⟩ := List.exists_cons_of_ne_nil (l := s ++ [x]) (by simp)
        rw [hv]
        exact ⟨v,more,rfl⟩
      | succ inner =>
        apply ih
        simp [hu,hne] at h
        omega
    · rw [if_neg hu]
      apply ih
      simpa [ho,hu] using h

/-- Brackets of every kind that close and open nothing, more than `n` of each. -/
def closers (n : ℕ) : List Token :=
  List.replicate (n + 1) (.bare .closeSquare ⟨0,0⟩) ++
    (List.replicate (n + 1) (.bare .closeCurly ⟨0,0⟩) ++ List.replicate (n + 1) (.bare .closeParen ⟨0,0⟩))

theorem kind_of_mem_closers {n : ℕ} {k : Token} (h : k ∈ closers n) :
    k.kind = .closeSquare ∨ k.kind = .closeCurly ∨ k.kind = .closeParen := by
  simp only [closers,List.mem_append,List.mem_replicate] at h
  rcases h with ⟨-,rfl⟩ | ⟨-,rfl⟩ | ⟨-,rfl⟩ <;> simp [Token.bare]

theorem mem_closers_of_getLast? {w : List Token} {n : ℕ} {t : Token} (h : t ∈ (w ++ closers n).getLast?) :
    t ∈ closers n := by
  rw [List.getLast?_append_of_ne_nil w (by simp [closers])] at h
  exact List.mem_of_mem_getLast? h

theorem countP_closers (n : ℕ) (hc : opening.closer = some closing) :
    (closers n).countP (·.kind = opening) = 0 ∧ n < (closers n).countP (·.kind = closing) := by
  cases opening <;> simp [TokenKind.closer] at hc <;> subst hc <;>
    simp [closers,List.countP_replicate,Token.bare]

/-- Whatever groups the tokens leave open, enough closing brackets after them close these. -/
theorem matched_closers {w : List Token} {n : ℕ} (hn : w.length ≤ n) : Matched (w ++ closers n) := by
  intro o s hs ho
  have hnone : ∀ k ∈ closers n, k.kind.closer = none := by
    intro k hk
    rcases kind_of_mem_closers hk with hk | hk | hk <;> rw [hk] <;> rfl
  rcases List.suffix_or_suffix_of_suffix hs (List.suffix_append w (closers n)) with hs' | ⟨u,hu⟩
  · exact absurd (hnone o (hs'.subset (List.mem_cons_self ..))) ho
  cases u with
  | nil =>
    have hmem : o ∈ closers n := by
      rw [List.nil_append] at hu
      exact hu ▸ List.mem_cons_self ..
    exact absurd (hnone o hmem) ho
  | cons y u =>
    rw [List.cons_append] at hu
    obtain ⟨rfl,rfl⟩ := List.cons.inj hu
    obtain ⟨closing,hcloser⟩ := Option.ne_none_iff_exists'.mp ho
    have hlength := hs.length_le
    simp only [List.length_cons,List.length_append] at hlength
    have hopen : u.countP (·.kind = y.kind) ≤ u.length := List.countP_le_length
    obtain ⟨hno,hmany⟩ := countP_closers n hcloser
    have hcount : 0 + (u ++ closers n).countP (·.kind = y.kind) < (u ++ closers n).countP (·.kind = closing) := by
      rw [List.countP_append,List.countP_append,hno]
      omega
    obtain ⟨t,rest,hr⟩ := exists_closeGroup (TokenKind.closer_ne hcloser).symm hcount .fresh
    have hskip : skipGroup y (u ++ closers n ++ [.fresh]) = .token t rest := by
      unfold skipGroup
      rw [hcloser]
      exact hr
    obtain ⟨g,hg,hgroup⟩ := group_of_skipGroup hcloser hskip
    obtain ⟨more,z,hz⟩ := (List.eq_nil_or_concat (t :: rest)).resolve_left (by simp)
    rw [hz,List.concat_eq_append,← List.append_assoc] at hg
    exact ⟨y :: g,more,congrArg _ (List.append_inj' hg rfl).1,hgroup⟩

end Closers

end SourceTags
