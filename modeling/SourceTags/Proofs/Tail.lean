import SourceTags.Proofs.Grammar

/-! # Tails of declarations

What follows the names of a binding is a type, complete or cut short, and then any tokens in which a
terminator stands only inside a group that directly follows a token which is passed. This is exactly what
is skipped up to the terminator that ends the declaration: no other tokens are.
-/
namespace SourceTags
open TokenStream

def NoGroupAhead (w : List Token) : Prop := ∀ t ∈ w.head?, t.kind.closer = none

/-- Tokens outside all groups are no terminators, and a group follows directly after such a token. -/
inductive Pieces : List Token → Prop
  | nil : Pieces []
  | token {t w} : t.kind ≠ .terminator → NoGroupAhead w → Pieces w → Pieces (t :: w)
  | group {t k g w} : t.kind ≠ .terminator → Group k g → Pieces w → Pieces (t :: (g ++ w))

/-- A type and then pieces. The type may be missing, or lack the part that its first tokens call for. -/
inductive Tail : List Token → Prop
  | untyped {w} : (∀ t ∈ w.head?, TypeForm.ofToken t = .missing) → Pieces w → Tail w
  | group {g w} : Group .openParen g → Pieces w → Tail (g ++ w)
  | name {t w} : t.kind = .identifier → (∀ u ∈ w.head?, u.kind ≠ .dot) → Pieces w → Tail (t :: w)
  | qualified {t d u w} : t.kind = .identifier → d.kind = .dot → Pieces w → Tail (t :: d :: u :: w)
  | body {t k g w} : TypeForm.ofToken t = .body → Group k g → Pieces w → Tail (t :: (g ++ w))
  | bodiless {t w} : TypeForm.ofToken t = .body → NoGroupAhead w → Pieces w → Tail (t :: w)
  | element {g w} : Group .openSquare g → Tail w → Tail (g ++ w)
  | sign {t w} : TypeForm.ofToken t = .sign → Tail w → Tail (t :: w)
  | signature {t k g w} : TypeForm.ofToken t = .signature → Group k g → Tail w → Tail (t :: (g ++ w))
  | bare {t w} : TypeForm.ofToken t = .signature → NoGroupAhead w → Tail w → Tail (t :: w)

variable {t e : Token} {w rest : List Token}

theorem readGroup_noGroup (hw : NoGroupAhead w) (he : e.kind = .terminator) :
    readGroup (w ++ e :: rest) = advance (w ++ e :: rest) := by
  cases w with
  | nil => exact readGroup_token (by rw [he]; rfl)
  | cons t w => exact readGroup_token (hw t rfl)

theorem advance_seekTerminator (hw : Pieces w) (he : e.kind = .terminator) (rest : List Token) :
    (advance (w ++ e :: rest)).andThen seekTerminator = .token e rest := by
  induction hw with
  | nil => exact seekTerminator_terminator he rest
  | token ht hg _ ih =>
    rw [List.cons_append,advance_cons,Reading.andThen_token,seekTerminator_of_ne ht,readGroup_noGroup hg he,ih]
  | group ht hg _ ih =>
    rw [List.cons_append,List.append_assoc,advance_cons,Reading.andThen_token,seekTerminator_of_ne ht,
      readGroup_group hg,ih]

theorem advance_skipTypeExpr_untyped (hw : ∀ t ∈ w.head?, TypeForm.ofToken t = .missing)
    (he : e.kind = .terminator) :
    (advance (w ++ e :: rest)).andThen skipTypeExpr = advance (w ++ e :: rest) := by
  cases w with
  | nil => exact skipTypeExpr_missing (by simp [TypeForm.ofToken,he]) rest
  | cons t w => exact skipTypeExpr_missing (hw t rfl) _

theorem skipTypeName_noDot (hw : ∀ u ∈ w.head?, u.kind ≠ .dot) (he : e.kind = .terminator) :
    skipTypeName (w ++ e :: rest) = advance (w ++ e :: rest) := by
  unfold skipTypeName
  cases w with
  | nil =>
    have hd : e.kind ≠ .dot := by simp [he]
    exact if_neg hd
  | cons u w => exact if_neg (hw u rfl)

/-- A tail is skipped up to the terminator after it. -/
theorem advance_skipTail (hw : Tail w) (he : e.kind = .terminator) (rest : List Token) :
    ((advance (w ++ e :: rest)).andThen skipTypeExpr).andThen seekTerminator = .token e rest := by
  induction hw with
  | untyped hm hp => rw [advance_skipTypeExpr_untyped hm he,advance_seekTerminator hp he]
  | group hg hp => rw [List.append_assoc,advance_skipTypeExpr_group hg,advance_seekTerminator hp he]
  | name hn hd hp =>
    rw [List.cons_append,advance_cons,Reading.andThen_token,
      skipTypeExpr_name (TypeForm.ofToken_identifier hn),skipTypeName_noDot hd he,advance_seekTerminator hp he]
  | qualified hn hd hp =>
    rw [List.cons_append,advance_cons,Reading.andThen_token,
      skipTypeExpr_name (TypeForm.ofToken_identifier hn),skipTypeName,List.cons_append,advance_cons,
      Reading.andThen_token,if_pos hd]
    exact advance_seekTerminator hp he rest
  | body hf hg hp =>
    rw [List.cons_append,List.append_assoc,advance_cons,Reading.andThen_token,skipTypeExpr_body hf,
      readGroup_group hg,advance_seekTerminator hp he]
  | bodiless hf hn hp =>
    rw [List.cons_append,advance_cons,Reading.andThen_token,skipTypeExpr_body hf,readGroup_noGroup hn he,
      advance_seekTerminator hp he]
  | element hg _ ih => rw [List.append_assoc,advance_skipTypeExpr_element hg,ih]
  | sign hf _ ih => rw [List.cons_append,advance_cons,Reading.andThen_token,skipTypeExpr_sign hf,ih]
  | signature hf hg _ ih =>
    rw [List.cons_append,List.append_assoc,advance_cons,Reading.andThen_token,skipTypeExpr_signature hf,
      readGroup_group hg,ih]
  | bare hf hn _ ih =>
    rw [List.cons_append,advance_cons,Reading.andThen_token,skipTypeExpr_signature hf,readGroup_noGroup hn he,ih]

namespace TypeForm

theorem kind_of_group (h : ofToken t = .group) : t.kind = .openParen := by
  unfold ofToken at h
  split at h
  all_goals try contradiction
  · assumption
  · split at h <;> contradiction

theorem kind_of_name (h : ofToken t = .name) : t.kind = .identifier := by
  unfold ofToken at h
  split at h
  all_goals try contradiction
  · assumption
  · split at h <;> contradiction

end TypeForm

theorem head?_of_eq {P : Token → Prop} {s : List Token} (hs : t :: s = w ++ e :: rest) (ht : P t) : ∀ u ∈ w.head?, P u := by
  intro u hu
  cases w with
  | nil => contradiction
  | cons v w =>
    obtain ⟨rfl,-⟩ := List.cons.inj hs
    obtain rfl := Option.some.inj hu
    exact ht

theorem noGroupAhead_of_eq {s : List Token} (hs : t :: s = w ++ e :: rest) (ht : t.kind.closer = none) :
    NoGroupAhead w := head?_of_eq hs ht

theorem pieces_of_seekTerminator {t : Token} {s : List Token} (h : seekTerminator t s = .token e rest) :
    ∃ w, t :: s = w ++ e :: rest ∧ Pieces w := by
  by_cases ht : t.kind = .terminator
  · rw [seekTerminator_terminator ht] at h
    obtain ⟨rfl,rfl⟩ := Reading.token.inj h
    exact ⟨[],rfl,.nil⟩
  · rw [seekTerminator_of_ne ht] at h
    obtain ⟨u,s',hr,h⟩ := Reading.andThen_eq_token.mp h
    have hlt := remaining_readGroup hr
    obtain ⟨w,hw,hp⟩ := pieces_of_seekTerminator h
    rcases group_of_readGroup hr with ⟨rfl,hu⟩ | ⟨k,g,rfl,hg⟩
    · exact ⟨t :: w,by rw [hw,List.cons_append],.token ht (noGroupAhead_of_eq hw hu) hp⟩
    · exact ⟨t :: (g ++ w),by rw [hw,List.cons_append,List.append_assoc],.group ht hg hp⟩
termination_by remaining s

theorem eq_of_skipTypeName {u : Token} {s s' : List Token} (h : skipTypeName s = .token u s') :
    s = u :: s' ∧ u.kind ≠ .dot ∨ ∃ d x, s = d :: x :: u :: s' ∧ d.kind = .dot := by
  obtain ⟨d,s₁,ha,hname⟩ := Reading.andThen_eq_token.mp h
  obtain rfl := eq_cons_of_advance ha
  split at hname
  · next hd =>
    obtain ⟨x,s₂,hx,hu⟩ := Reading.andThen_eq_token.mp hname
    obtain rfl := eq_cons_of_advance hx
    obtain rfl := eq_cons_of_advance hu
    exact .inr ⟨d,x,rfl,hd⟩
  · next hd =>
    obtain ⟨rfl,rfl⟩ := Reading.token.inj hname
    exact .inl ⟨rfl,hd⟩

section Starts

variable {t : Token} {s : List Token}

theorem tail_of_missing (hf : TypeForm.ofToken t = .missing) (h : seekTerminator t s = .token e rest) :
    ∃ w, t :: s = w ++ e :: rest ∧ Tail w := by
  obtain ⟨w,hw,hp⟩ := pieces_of_seekTerminator h
  exact ⟨w,hw,.untyped (head?_of_eq hw hf) hp⟩

theorem tail_of_group (hf : TypeForm.ofToken t = .group)
    (h : (skipGroup t s).andThen seekTerminator = .token e rest) : ∃ w, t :: s = w ++ e :: rest ∧ Tail w := by
  have hk := TypeForm.kind_of_group hf
  obtain ⟨u,s',hr,hs⟩ := Reading.andThen_eq_token.mp h
  obtain ⟨g,rfl,hg⟩ := group_of_skipGroup (by rw [hk]; rfl) hr
  obtain ⟨w,hw,hp⟩ := pieces_of_seekTerminator hs
  exact ⟨t :: g ++ w,by rw [hw,List.append_assoc,List.cons_append],.group (hk ▸ hg) hp⟩

theorem tail_of_name (hf : TypeForm.ofToken t = .name)
    (h : (skipTypeName s).andThen seekTerminator = .token e rest) : ∃ w, t :: s = w ++ e :: rest ∧ Tail w := by
  have hk := TypeForm.kind_of_name hf
  obtain ⟨u,s',hr,hs⟩ := Reading.andThen_eq_token.mp h
  obtain ⟨w,hw,hp⟩ := pieces_of_seekTerminator hs
  rcases eq_of_skipTypeName hr with ⟨rfl,hu⟩ | ⟨d,x,rfl,hd⟩
  · exact ⟨t :: w,by rw [hw,List.cons_append],.name hk (head?_of_eq hw hu) hp⟩
  · exact ⟨t :: d :: x :: w,by rw [hw]; rfl,.qualified hk hd hp⟩

theorem tail_of_body (hf : TypeForm.ofToken t = .body)
    (h : (readGroup s).andThen seekTerminator = .token e rest) : ∃ w, t :: s = w ++ e :: rest ∧ Tail w := by
  obtain ⟨u,s',hr,hs⟩ := Reading.andThen_eq_token.mp h
  obtain ⟨w,hw,hp⟩ := pieces_of_seekTerminator hs
  rcases group_of_readGroup hr with ⟨rfl,hu⟩ | ⟨k,g,rfl,hg⟩
  · exact ⟨t :: w,by rw [hw,List.cons_append],.bodiless hf (noGroupAhead_of_eq hw hu) hp⟩
  · exact ⟨t :: (g ++ w),by rw [hw,List.cons_append,List.append_assoc],.body hf hg hp⟩

end Starts

theorem tail_of_skipTypeExpr {t : Token} {s : List Token}
    (h : (skipTypeExpr t s).andThen seekTerminator = .token e rest) : ∃ w, t :: s = w ++ e :: rest ∧ Tail w := by
  cases hf : TypeForm.ofToken t with
  | missing =>
    rw [skipTypeExpr_missing hf,Reading.andThen_token] at h
    exact tail_of_missing hf h
  | group =>
    rw [skipTypeExpr_group hf] at h
    exact tail_of_group hf h
  | name =>
    rw [skipTypeExpr_name hf] at h
    exact tail_of_name hf h
  | body =>
    rw [skipTypeExpr_body hf] at h
    exact tail_of_body hf h
  | element =>
    have hk := TypeForm.kind_of_element hf
    rw [skipTypeExpr_element hf,Reading.andThen_assoc] at h
    obtain ⟨u,s',hr,hs⟩ := Reading.andThen_eq_token.mp h
    obtain ⟨g,rfl,hg⟩ := group_of_skipGroup (by rw [hk]; rfl) hr
    have hlt : remaining s' < remaining (g ++ u :: s') := by
      simp [remaining]
      omega
    obtain ⟨w,hw,ht⟩ := tail_of_skipTypeExpr hs
    exact ⟨t :: g ++ w,by rw [hw,List.append_assoc,List.cons_append],.element (hk ▸ hg) ht⟩
  | sign =>
    rw [skipTypeExpr_sign hf,Reading.andThen_assoc] at h
    obtain ⟨u,s',hr,hs⟩ := Reading.andThen_eq_token.mp h
    have hlt := remaining_advance hr
    obtain ⟨w,hw,ht⟩ := tail_of_skipTypeExpr hs
    obtain rfl := eq_cons_of_advance hr
    exact ⟨t :: w,by rw [hw,List.cons_append],.sign hf ht⟩
  | signature =>
    rw [skipTypeExpr_signature hf,Reading.andThen_assoc] at h
    obtain ⟨u,s',hr,hs⟩ := Reading.andThen_eq_token.mp h
    have hlt := remaining_readGroup hr
    obtain ⟨w,hw,ht⟩ := tail_of_skipTypeExpr hs
    rcases group_of_readGroup hr with ⟨rfl,hu⟩ | ⟨k,g,rfl,hg⟩
    · exact ⟨t :: w,by rw [hw,List.cons_append],.bare hf (noGroupAhead_of_eq hw hu) ht⟩
    · exact ⟨t :: (g ++ w),by rw [hw,List.cons_append,List.append_assoc],.signature hf hg ht⟩
termination_by remaining s

/-- Exactly a tail is passed up to the terminator after it. -/
theorem advance_skipTail_iff (he : e.kind = .terminator) :
    ((advance (w ++ e :: rest)).andThen skipTypeExpr).andThen seekTerminator = .token e rest ↔ Tail w := by
  constructor
  · intro h
    rw [Reading.andThen_assoc] at h
    obtain ⟨t,s,ha,hs⟩ := Reading.andThen_eq_token.mp h
    obtain ⟨w',hw,ht⟩ := tail_of_skipTypeExpr hs
    have heq : w ++ e :: rest = w' ++ e :: rest := (eq_cons_of_advance ha).trans hw
    exact List.append_cancel_right heq ▸ ht
  · intro h
    exact advance_skipTail h he rest

end SourceTags
