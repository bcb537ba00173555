import SourceTags.Declaration.Basic

/-! # Passes that go alike

Two streams go alike when, from related places, they give related tokens and come to related places
again. Related tokens have one kind and one keyword, which is all that a pass looks at, so every routine
goes alike on such streams. A relation between passes that no reading breaks and that every report keeps
then holds when the passes end. A stream may also go on where the one it follows has ended.
-/
namespace SourceTags
open TokenStream

variable {α β τ υ : Type}

namespace Reading

/-- The second reading gives what the first gives, up to the relations. Where the first ends, the second
may still give a token, unless both have to end together. -/
def Follows (T : Token → Token → Prop) (R E : α → β → Prop) (together : Prop) :
    Reading α → Reading β → Prop
  | token t s, token t' s' => T t t' ∧ R s s'
  | token _ _, endOfInput _ _ => False
  | endOfInput _ _, token _ _ => ¬together
  | endOfInput _ s, endOfInput _ s' => together → E s s'

variable {T : Token → Token → Prop} {R E : α → β → Prop} {together : Prop}

theorem Follows.of_not (h : ¬together) (left : Token) (s : α) (r : Reading β) :
    Follows T R E together (endOfInput left s) r := by
  cases r with
  | token => exact h
  | endOfInput => exact fun ht => absurd ht h

theorem Follows.cases {r : Reading α} {r' : Reading β} (h : Follows T R E together r r') :
    (∃ t s t' s', r = token t s ∧ r' = token t' s' ∧ T t t' ∧ R s s') ∨
    (∃ left s left' s', r = endOfInput left s ∧ r' = endOfInput left' s') ∨
    (∃ left s, r = endOfInput left s ∧ ¬together) := by
  cases r with
  | token t s =>
    cases r' with
    | token t' s' => exact .inl ⟨t,s,t',s',rfl,rfl,h⟩
    | endOfInput => exact h.elim
  | endOfInput left s =>
    cases r' with
    | token => exact .inr (.inr ⟨left,s,rfl,h⟩)
    | endOfInput left' s' => exact .inr (.inl ⟨left,s,left',s',rfl,rfl⟩)

theorem Follows.andThen {T' : Token → Token → Prop} {R' : α → β → Prop} {r : Reading α} {r' : Reading β}
    {f : Token → α → Reading α} {f' : Token → β → Reading β} (h : Follows T R E together r r')
    (hf : ∀ {t t' s s'}, r = token t s → T t t' → R s s' → Follows T' R' E together (f t s) (f' t' s')) :
    Follows T' R' E together (r.andThen f) (r'.andThen f') := by
  cases r with
  | token t s =>
    cases r' with
    | token t' s' => exact hf rfl h.1 h.2
    | endOfInput => exact h.elim
  | endOfInput left s =>
    cases r' with
    | token => exact Follows.of_not h ..
    | endOfInput => exact h

end Reading
open Reading

variable [TokenStream τ] [TokenStream υ]

structure Simulation (T : Token → Token → Prop) (R : τ → υ → Prop) (together : Prop) : Prop where
  kind {t t' : Token} : T t t' → t.kind = t'.kind
  keyword {t t' : Token} : T t t' → t.keyword = t'.keyword
  advance {s : τ} {s' : υ} :
    R s s' → Follows T R (fun _ _ => True) together (advance s) (advance s')

namespace Simulation

variable {T : Token → Token → Prop} {R : τ → υ → Prop} {together : Prop}
variable {t t' : Token} {s : τ} {s' : υ}

theorem refl : Simulation Eq (Eq : τ → τ → Prop) True where
  kind h := congrArg _ h
  keyword h := congrArg _ h
  advance := by
    rintro s _ rfl
    cases TokenStream.advance s with
    | token => exact ⟨rfl,rfl⟩
    | endOfInput => exact fun _ => trivial

abbrev Alike (_ : Simulation T R together) : Reading τ → Reading υ → Prop :=
  Follows T R (fun _ _ => True) together

theorem hasKeyword (sim : Simulation T R together) (ht : T t t') (k : Keyword) :
    t.hasKeyword k = t'.hasKeyword k := by
  unfold Token.hasKeyword
  rw [sim.kind ht,sim.keyword ht]

theorem typeForm (sim : Simulation T R together) (ht : T t t') :
    TypeForm.ofToken t = TypeForm.ofToken t' := by
  unfold TypeForm.ofToken
  rw [sim.kind ht,sim.keyword ht]

theorem closeGroup (sim : Simulation T R together) {opening closing : TokenKind} {inner : Nat}
    {s : τ} {s' : υ} (h : R s s') :
    sim.Alike (closeGroup opening closing inner s) (SourceTags.closeGroup opening closing inner s') := by
  rw [closeGroup_eq,closeGroup_eq]
  refine (sim.advance h).andThen ?_
  intro u u' _ _ hr hu hR
  have := remaining_advance hr
  rw [← sim.kind hu]
  split
  · exact closeGroup sim hR
  · split
    · cases inner with
      | zero => exact sim.advance hR
      | succ inner => exact closeGroup sim hR
    · exact closeGroup sim hR
termination_by remaining s

theorem skipGroup (sim : Simulation T R together) (ht : T t t') (h : R s s') :
    sim.Alike (skipGroup t s) (SourceTags.skipGroup t' s') := by
  unfold SourceTags.skipGroup
  rw [← sim.kind ht]
  split
  · exact ⟨ht,h⟩
  · exact sim.closeGroup h

theorem readGroup (sim : Simulation T R together) (h : R s s') :
    sim.Alike (readGroup s) (SourceTags.readGroup s') :=
  (sim.advance h).andThen fun _ hu hR => sim.skipGroup hu hR

theorem seekTerminator (sim : Simulation T R together) {t t' : Token} {s : τ} {s' : υ}
    (ht : T t t') (h : R s s') :
    sim.Alike (seekTerminator t s) (SourceTags.seekTerminator t' s') := by
  by_cases hk : t.kind = .terminator
  · rw [seekTerminator_terminator hk,seekTerminator_terminator ((sim.kind ht).symm.trans hk)]
    exact ⟨ht,h⟩
  · rw [seekTerminator_of_ne hk,seekTerminator_of_ne (sim.kind ht ▸ hk)]
    refine (sim.readGroup h).andThen ?_
    intro u u' _ _ hr hu hR
    have := remaining_readGroup hr
    exact seekTerminator sim hu hR
termination_by remaining s

theorem skipTypeName (sim : Simulation T R together) (h : R s s') :
    sim.Alike (skipTypeName s) (SourceTags.skipTypeName s') := by
  refine (sim.advance h).andThen ?_
  intro u u' _ _ _ hu hR
  rw [← sim.kind hu]
  split
  · exact (sim.advance hR).andThen fun _ _ hR => sim.advance hR
  · exact ⟨hu,hR⟩

theorem skipTypeStart (sim : Simulation T R together) (form : TypeForm) (ht : T t t') (h : R s s') :
    sim.Alike (skipTypeStart form t s) (SourceTags.skipTypeStart form t' s') := by
  cases form with
  | missing => exact ⟨ht,h⟩
  | group | element => exact sim.skipGroup ht h
  | name => exact sim.skipTypeName h
  | body | signature => exact sim.readGroup h
  | sign => exact sim.advance h

theorem skipTypeExpr (sim : Simulation T R together) {t t' : Token} {s : τ} {s' : υ}
    (ht : T t t') (h : R s s') :
    sim.Alike (skipTypeExpr t s) (SourceTags.skipTypeExpr t' s') := by
  rw [skipTypeExpr_eq,skipTypeExpr_eq,← sim.typeForm ht]
  refine (sim.skipTypeStart _ ht h).andThen ?_
  intro u u' _ _ hr hu hR
  split
  · next hi =>
    have := remaining_skipTypeStart_lt hi hr
    exact skipTypeExpr sim hu hR
  · exact ⟨hu,hR⟩
termination_by remaining s

theorem readBindingName (sim : Simulation T R together) (h : R s s') :
    sim.Alike (readBindingName s) (SourceTags.readBindingName s') := by
  refine (sim.advance h).andThen ?_
  intro u u' _ _ _ hu hR
  rw [← sim.hasKeyword hu]
  split
  · exact sim.advance hR
  · exact ⟨hu,hR⟩

theorem readFunctionName (sim : Simulation T R together) (h : R s s') :
    sim.Alike (readFunctionName s) (SourceTags.readFunctionName s') := by
  refine (sim.advance h).andThen ?_
  intro u u' _ _ _ hu hR
  rw [← sim.kind hu]
  split
  · exact sim.skipGroup hu hR
  · exact ⟨hu,hR⟩

theorem skipBody (sim : Simulation T R together) (ht : T t t') (h : R s s') :
    sim.Alike (skipBody t s) (SourceTags.skipBody t' s') := by
  unfold SourceTags.skipBody
  rw [← sim.kind ht]
  split
  · exact sim.skipGroup ht h
  · exact ⟨ht,h⟩

theorem skipSignature (sim : Simulation T R together) (h : R s s') :
    sim.Alike (skipSignature s) (SourceTags.skipSignature s') :=
  ((sim.readGroup h).andThen fun _ ht h => sim.skipTypeExpr ht h).andThen
    fun _ ht h => sim.skipBody ht h

end Simulation

def AfterName.Follows (T : Token → Token → Prop) (R : τ → υ → Prop) (together : Prop) :
    AfterName τ → AfterName υ → Prop
  | name t s, name t' s' | done t s, done t' s' => T t t' ∧ R s s'
  | endOfInput _ _, endOfInput _ _ => True
  | endOfInput _ _, name _ _ | endOfInput _ _, done _ _ => ¬together
  | _, _ => False

namespace Simulation

variable {T : Token → Token → Prop} {R : τ → υ → Prop} {together : Prop}
variable {t t' : Token} {s : τ} {s' : υ}

omit [TokenStream τ] [TokenStream υ] in
theorem afterName_of_not (h : ¬together) (left : Token) (s : τ) (a : AfterName υ) :
    AfterName.Follows T R together (.endOfInput left s) a := by
  cases a with
  | name | done => exact h
  | endOfInput => trivial

theorem afterComma (sim : Simulation T R together) (comma comma' : Token) (h : R s s') :
    AfterName.Follows T R together (afterComma comma s) (SourceTags.afterComma comma' s') := by
  unfold SourceTags.afterComma
  rcases (sim.readBindingName h).cases with
    ⟨name,u,name',u',hn,hn',hname,hu⟩ | ⟨_,_,_,_,hn,hn'⟩ | ⟨_,_,hn,hnot⟩
  · rw [hn,hn']
    exact ⟨hname,hu⟩
  · rw [hn,hn']
    trivial
  · rw [hn]
    exact afterName_of_not hnot ..

theorem afterTerminator (sim : Simulation T R together) (ht : T t t') (h : R s s') :
    AfterName.Follows T R together (afterTerminator t s) (SourceTags.afterTerminator t' s') := by
  unfold SourceTags.afterTerminator
  rcases (sim.readBindingName h).cases with
    ⟨name,u,name',u',hn,hn',hname,hu⟩ | ⟨_,_,_,_,hn,hn'⟩ | ⟨_,_,hn,hnot⟩
  · rw [hn,hn']
    dsimp only
    rw [← sim.kind hname]
    split
    · exact ⟨ht,hu⟩
    · exact ⟨hname,hu⟩
  · rw [hn,hn']
    trivial
  · rw [hn]
    exact afterName_of_not hnot ..

theorem afterName (sim : Simulation T R together) (grouped : Bool) (h : R s s') :
    AfterName.Follows T R together (afterName grouped s) (SourceTags.afterName grouped s') := by
  unfold SourceTags.afterName
  rcases (sim.advance h).cases with
    ⟨u,r,u',r',hr,hr',hu,hrest⟩ | ⟨_,_,_,_,hr,hr'⟩ | ⟨_,_,hr,hnot⟩
  · rw [hr,hr']
    dsimp only
    rw [← sim.kind hu]
    split
    · exact sim.afterComma _ _ hrest
    · have hs := (sim.skipTypeExpr hu hrest).andThen fun _ hw hx => sim.seekTerminator hw hx
      rcases hs.cases with ⟨w,x,w',x',hw,hw',hlast,hx⟩ | ⟨_,_,_,_,hw,hw'⟩ | ⟨_,_,hw,hnot⟩
      · rw [hw,hw']
        dsimp only
        split
        · exact sim.afterTerminator hlast hx
        · exact ⟨hlast,hx⟩
      · rw [hw,hw']
        trivial
      · rw [hw]
        exact afterName_of_not hnot ..
  · rw [hr,hr']
    trivial
  · rw [hr]
    exact afterName_of_not hnot ..

end Simulation

/-- A relation between passes that does not look at what is left to read and that reports keep. -/
structure Kept (T : Token → Token → Prop) (P : Pass τ → Pass υ → Prop) : Prop where
  withInput {p : Pass τ} {q : Pass υ} (s : τ) (s' : υ) : P p q → P (p.withInput s) (q.withInput s')
  report {p : Pass τ} {q : Pass υ} {t t' : Token} (kind : DeclarationKind) :
    T t t' → P p q → P (p.report kind t) (q.report kind t')

namespace Simulation

variable {T : Token → Token → Prop} {R : τ → υ → Prop} {together : Prop} {P : Pass τ → Pass υ → Prop}
variable {t t' : Token} {p : Pass τ} {q : Pass υ}

abbrev PassAlike (_ : Simulation T R together) (P : Pass τ → Pass υ → Prop) :
    Reading (Pass τ) → Reading (Pass υ) → Prop :=
  Follows T (fun p q => R p.input q.input ∧ P p q) P together

theorem names (sim : Simulation T R together) (kept : Kept T P) {kind : DeclarationKind} {grouped : Bool}
    {t t' : Token} {p : Pass τ} {q : Pass υ} (ht : T t t') (h : R p.input q.input) (hp : P p q) :
    sim.PassAlike P (p.names kind grouped t) (q.names kind grouped t') := by
  rw [Pass.names_eq,Pass.names_eq]
  have ha := sim.afterName grouped h
  have hreport := kept.report kind ht hp
  cases hn : SourceTags.afterName grouped p.input with
  | endOfInput left s =>
    cases hn' : SourceTags.afterName grouped q.input with
    | endOfInput => exact fun _ => kept.withInput _ _ hreport
    | name | done => rw [hn,hn'] at ha; exact Follows.of_not ha ..
  | done u s =>
    cases hn' : SourceTags.afterName grouped q.input with
    | endOfInput | name => rw [hn,hn'] at ha; exact ha.elim
    | done u' s' => rw [hn,hn'] at ha; exact ⟨ha.1,ha.2,kept.withInput _ _ hreport⟩
  | name u s =>
    cases hn' : SourceTags.afterName grouped q.input with
    | endOfInput | done => rw [hn,hn'] at ha; exact ha.elim
    | name u' s' =>
      rw [hn,hn'] at ha
      have := remaining_afterName (.inl hn)
      exact names sim kept ha.1 ha.2 (kept.withInput _ _ hreport)
termination_by remaining p.input

theorem binding (sim : Simulation T R together) (kept : Kept T P) (kind : DeclarationKind)
    (h : R p.input q.input) (hp : P p q) :
    sim.PassAlike P (p.binding kind t) (q.binding kind t') := by
  unfold Pass.binding
  rcases (sim.readBindingName h).cases with
    ⟨u,r,u',r',hr,hr',hu,hrest⟩ | ⟨_,_,_,_,hr,hr'⟩ | ⟨_,_,hr,hnot⟩
  · rw [hr,hr']
    dsimp only
    rw [← sim.kind hu]
    split
    · rcases (sim.readBindingName hrest).cases with
        ⟨w,x,w',x',hw,hw',hname,hx⟩ | ⟨_,_,_,_,hw,hw'⟩ | ⟨_,_,hw,hnot⟩
      · rw [hw,hw']
        exact sim.names kept hname hx (kept.withInput _ _ hp)
      · rw [hw,hw']
        exact fun _ => kept.withInput _ _ hp
      · rw [hw]
        exact Follows.of_not hnot ..
    · exact sim.names kept hu hrest (kept.withInput _ _ hp)
  · rw [hr,hr']
    exact fun _ => kept.withInput _ _ hp
  · rw [hr]
    exact Follows.of_not hnot ..

theorem function (sim : Simulation T R together) (kept : Kept T P) (ht : T t t')
    (h : R p.input q.input) (hp : P p q) : sim.PassAlike P (p.function t) (q.function t') := by
  unfold Pass.function
  rcases (sim.readFunctionName h).cases with
    ⟨u,r,u',r',hr,hr',hu,hrest⟩ | ⟨_,_,_,_,hr,hr'⟩ | ⟨_,_,hr,hnot⟩
  · rw [hr,hr']
    dsimp only
    rw [← sim.kind hu]
    split
    · rcases (sim.skipSignature hrest).cases with
        ⟨w,x,w',x',hw,hw',hnext,hx⟩ | ⟨_,_,_,_,hw,hw'⟩ | ⟨_,_,hw,hnot⟩
      · rw [hw,hw']
        exact ⟨hnext,hx,kept.report .function hu (kept.withInput _ _ hp)⟩
      · rw [hw,hw']
        exact fun _ => kept.withInput _ _ hp
      · rw [hw]
        exact Follows.of_not hnot ..
    · exact ⟨ht,hrest,kept.withInput _ _ hp⟩
  · rw [hr,hr']
    exact fun _ => kept.withInput _ _ hp
  · rw [hr]
    exact Follows.of_not hnot ..

theorem declaration (sim : Simulation T R together) (kept : Kept T P) (ht : T t t')
    (h : R p.input q.input) (hp : P p q) : sim.PassAlike P (p.declaration t) (q.declaration t') := by
  unfold Pass.declaration
  rw [← sim.keyword ht]
  split
  · exact sim.function kept ht h hp
  · exact sim.binding kept _ h hp
  · exact sim.binding kept _ h hp
  · exact ⟨ht,h,hp⟩

/-- Passes over streams that go alike, and end together, stay related to their ends. -/
theorem declarations (sim : Simulation T R True) (kept : Kept T P) {p : Pass τ} {q : Pass υ}
    (h : R p.input q.input) (hp : P p q) : P p.declarations.2 q.declarations.2 := by
  rw [Pass.declarations_eq,Pass.declarations_eq]
  rcases (sim.advance h).cases with
    ⟨u,r,u',r',hr,hr',hu,hrest⟩ | ⟨_,_,_,_,hr,hr'⟩ | ⟨_,_,_,hnot⟩
  · rw [hr,hr']
    have hd := sim.declaration kept hu (p := p.withInput r) (q := q.withInput r') hrest
      (kept.withInput _ _ hp)
    dsimp only
    cases hn : (p.withInput r).declaration u with
    | endOfInput left p' =>
      cases hn' : (q.withInput r').declaration u' with
      | endOfInput => rw [hn,hn'] at hd; exact hd trivial
      | token => rw [hn,hn'] at hd; exact absurd trivial hd
    | token w p' =>
      cases hn' : (q.withInput r').declaration u' with
      | endOfInput => rw [hn,hn'] at hd; exact hd.elim
      | token w' q' =>
        rw [hn,hn'] at hd
        have := Nat.lt_of_le_of_lt (Pass.remaining_declaration hn) (remaining_advance hr)
        exact declarations sim kept hd.2.1 hd.2.2
  · rw [hr,hr']
    exact kept.withInput _ _ hp
  · exact absurd trivial hnot
termination_by remaining p.input

end Simulation

end SourceTags
