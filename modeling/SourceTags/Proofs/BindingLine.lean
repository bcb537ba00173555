import SourceTags.Proofs.BindingEnd
import SourceTags.Proofs.ReadTokens

/-! # A binding ends with its line

No token that ends no statement has a terminator after it, so the names of a binding, the blind readings after a comma
and after a dot, and the tokens that call for a type can none of them step over the end of the line. Where no bracket
is opened before the first terminator the declaration ends there, however malformed it is, and the next line is read
for itself. The skipper of types passes a terminator nowhere but in a group.
-/
namespace SourceTags
open TokenStream

section Moves

variable {τ : Type} [TokenStream τ]

/-- Moving on from the current token: past it alone, if it is no terminator, or past the group that it opens. -/
inductive MovesPast (t : Token) (s : τ) : Reading τ → Prop
  | token : t.kind ≠ .terminator → MovesPast t s (advance s)
  | group : t.kind.closer ≠ none → MovesPast t s (skipGroup t s)

/-- Moving on any number of times, or until the input ends. -/
inductive MovesOn : Token → τ → Reading τ → Prop
  | stay {t s} : MovesOn t s (.token t s)
  | more {t s u s' r} : MovesPast t s (.token u s') → MovesOn u s' r → MovesOn t s r
  | ended {t s left s'} : MovesPast t s (.endOfInput left s') → MovesOn t s (.endOfInput left s')

variable {t : Token} {s : τ} {r : Reading τ} {f : Token → τ → Reading τ}

theorem MovesPast.on (h : MovesPast t s r) : MovesOn t s r := by
  cases r with
  | token => exact .more h .stay
  | endOfInput => exact .ended h

theorem MovesOn.andThen (h : MovesOn t s r) (hf : ∀ u s', r = .token u s' → MovesOn u s' (f u s')) :
    MovesOn t s (r.andThen f) := by
  induction h with
  | stay => exact hf _ _ rfl
  | more hp _ ih => exact .more hp (ih hf)
  | ended hp => exact .ended hp

theorem movesOn_skipGroup (t : Token) (s : τ) : MovesOn t s (skipGroup t s) := by
  by_cases ht : t.kind.closer = none
  · rw [skipGroup_of_closer_eq_none ht]
    exact .stay
  · exact (MovesPast.group ht).on

theorem movesOn_readGroup (ht : t.kind ≠ .terminator) (s : τ) : MovesOn t s (readGroup s) :=
  (MovesPast.token ht).on.andThen fun u s' _ => movesOn_skipGroup u s'

variable {σ : Type} [ByteSource σ]

theorem movesOn_skipTypeName {t : Token} (ht : t.kind ≠ .terminator) (z : Scanner σ) : MovesOn t z (skipTypeName z) := by
  apply (MovesPast.token ht).on.andThen
  intro u z₁ hu
  split
  · next hd =>
    apply (MovesPast.token (by simp [hd])).on.andThen
    intro x z₂ hx
    have hsettled := (settled_of_gives (.cons hu (.cons hx .nil))).2
    exact (MovesPast.token (hsettled.kind_next (by rw [hd]; rfl))).on
  · exact .stay

theorem movesOn_skipTypeStart (t : Token) (z : Scanner σ) : MovesOn t z (skipTypeStart (.ofToken t) t z) := by
  have hkind : TypeForm.ofToken t ≠ .missing → t.kind ≠ .terminator := by
    intro hf hk
    simp [TypeForm.ofToken,hk] at hf
  cases hf : TypeForm.ofToken t with
  | missing => exact .stay
  | group | element => exact movesOn_skipGroup t z
  | name => exact movesOn_skipTypeName (hkind (by simp [hf])) z
  | body | signature => exact movesOn_readGroup (hkind (by simp [hf])) z
  | sign => exact (MovesPast.token (hkind (by simp [hf]))).on

theorem movesOn_skipTypeExpr (t : Token) (z : Scanner σ) : MovesOn t z (skipTypeExpr t z) := by
  rw [skipTypeExpr_eq]
  apply (movesOn_skipTypeStart t z).andThen
  intro u z' hr
  split
  · next hi =>
    have := remaining_skipTypeStart_lt hi hr
    exact movesOn_skipTypeExpr u z'
  · exact .stay
termination_by remaining z

end Moves

section Line

variable {a e : Token} {w : List Token}

theorem Settled.mayEndStatement_getLast? (h : Settled (w ++ [e])) (he : e.kind = .terminator) :
    ∀ t ∈ w.getLast?, t.kind.mayEndStatement = true := by
  intro t ht
  obtain ⟨before,rfl⟩ := List.getLast?_eq_some_iff.mp ht
  by_contra hno
  have hpair : [t,e] <:+ before ++ [t] ++ [e] := ⟨before,by simp⟩
  exact (h.of_suffix hpair).kind_next (Bool.eq_false_iff.mpr hno) he

theorem Settled.exists_namePlace (h : Settled (a :: (w ++ [e]))) (ha : a.kind.mayEndStatement = false)
    (he : e.kind = .terminator) : ∃ v name w', w = v ++ w' ∧ NamePlace v name ∧ w'.length < w.length := by
  have hname : ∀ {b : Token} {u : List Token}, Settled (b :: (u ++ [e])) → b.kind.mayEndStatement = false →
      ∃ x u', u = x :: u' := by
    intro b u hs hb
    cases u with
    | nil => exact absurd he (hs.kind_next hb)
    | cons x u => exact ⟨x,u,rfl⟩
  obtain ⟨x,w,rfl⟩ := hname h ha
  by_cases hm : x.hasKeyword .kwMut
  · have hx : x.kind = .keyword := by
      simp only [Token.hasKeyword,Bool.and_eq_true,beq_iff_eq] at hm
      exact hm.1
    obtain ⟨y,w,rfl⟩ := hname (h.of_suffix (List.suffix_cons a _)) (by rw [hx]; rfl)
    exact ⟨[x,y],y,w,rfl,.mutable hm,Nat.lt_succ_of_lt (Nat.lt_succ_self _)⟩
  · exact ⟨[x],x,w,rfl,.plain hm,Nat.lt_succ_self _⟩

/-- What stands before a terminator begins with names, and goes on with no further comma. -/
theorem Settled.exists_namePlaces {a e : Token} {w : List Token} (h : Settled (a :: (w ++ [e])))
    (ha : a.kind.mayEndStatement = false) (he : e.kind = .terminator) :
    ∃ ns names tail, w = ns ++ tail ∧ NamePlaces ns names ∧ ∀ t ∈ tail.head?, t.kind ≠ .comma := by
  obtain ⟨v,name,w',rfl,hv,hlt⟩ := h.exists_namePlace ha he
  by_cases hcomma : ∃ c ∈ w'.head?, c.kind = .comma
  · obtain ⟨c,hc,hk⟩ := hcomma
    cases w' with
    | nil => contradiction
    | cons x w' =>
      obtain rfl := Option.some.inj hc
      have hrest : Settled (x :: (w' ++ [e])) := h.of_suffix ⟨a :: v,by simp⟩
      obtain ⟨ns,names,tail,rfl,hn,htail⟩ := Settled.exists_namePlaces hrest (by rw [hk]; rfl) he
      exact ⟨v ++ x :: ns,name :: names,tail,by simp,.cons hv hk hn,htail⟩
  · exact ⟨v,[name],w',rfl,.one hv,fun t ht hk => hcomma ⟨t,ht,hk⟩⟩
termination_by w.length

theorem NamePlace.sublist {v : List Token} {name : Token} (h : NamePlace v name) : [name].Sublist v := by
  cases h with
  | plain => exact List.Sublist.refl _
  | mutable => exact List.sublist_cons_self ..

theorem NamePlaces.sublist {ns names : List Token} (h : NamePlaces ns names) : names.Sublist ns := by
  induction h with
  | one hn => exact hn.sublist
  | cons hn _ _ ih => exact hn.sublist.append (ih.trans (List.sublist_cons_self ..))

theorem NamePlaces.ne_nil {ns names : List Token} (h : NamePlaces ns names) : names ≠ [] := by
  cases h <;> simp

/-- Where no group is opened, all tokens before the first terminator are a tail. -/
theorem tail_of_noGroups (hw : ∀ t ∈ w, t.kind.closer = none ∧ t.kind ≠ .terminator) (he : e.kind = .terminator)
    (hs : Settled (w ++ [e])) : Tail w := by
  have hmatched : Matched w := fun o s ho hopen => absurd (hw o (ho.subset List.mem_cons_self)).1 hopen
  have hdot : ∀ t ∈ w.getLast?, t.kind ≠ .dot := by
    intro t ht hk
    have hends := hs.mayEndStatement_getLast? he t ht
    rw [hk] at hends
    contradiction
  obtain ⟨w₀,e₀,w₁,hsplit,he₀,htail⟩ := hmatched.exists_tail hdot he
  rcases List.eq_nil_or_concat w₁ with rfl | ⟨w₂,x,rfl⟩
  · obtain ⟨rfl,-⟩ := List.append_inj' hsplit rfl
    exact htail
  · rw [List.concat_eq_append,← List.cons_append,← List.append_assoc] at hsplit
    obtain ⟨rfl,-⟩ := List.append_inj' hsplit rfl
    exact absurd he₀ (hw e₀ (by simp)).2

end Line

variable {σ : Type} [ByteSource σ]

/-- A binding without an opening bracket before the first terminator ends with that terminator, whatever tokens stand
before it. It reports one or more of them, and nothing of what follows: the pass goes on with the token after the
terminator. Wherever a type is skipped, a terminator is passed only in a group that is skipped as a whole. -/
theorem binding_line {z₀ z z' : Scanner σ} {t e : Token} {w : List Token} {kind : DeclarationKind}
    (ht : advance z₀ = .token t z)
    (hk : t.keyword = some .kwType ∧ kind = .typeAlias ∨ t.keyword = some .kwLet ∧ kind = .binding)
    (hw : ∀ u ∈ w, u.kind.closer = none ∧ u.kind ≠ .terminator) (he : e.kind = .terminator)
    (hz : Gives z (w ++ [e]) z') (p : Pass (Scanner σ)) (hp : p.settings.kinds = .all) :
    (∃ names q, names ≠ [] ∧ names.Sublist w ∧
      (p.withInput z).declaration t = .token e q ∧ q.input = z' ∧
      q.tags = p.tags ++ p.settings.tagsOf (names.map (Prod.mk kind)) ∧
      q.count = p.count + (p.settings.tagsOf (names.map (Prod.mk kind))).length ∧
      (p.withInput z₀).declarations = q.declarations) ∧
    ∀ (u : Token) (y : Scanner σ), MovesOn u y (skipTypeExpr u y) := by
  refine ⟨?_,fun u y => movesOn_skipTypeExpr u y⟩
  have hkind : t.kind = .keyword := by
    by_contra hno
    have hnone := keyword_of_advance ht hno
    rcases hk with ⟨hk,-⟩ | ⟨hk,-⟩ <;> rw [hk] at hnone <;> contradiction
  have hsettled : Settled (t :: (w ++ [e])) := (settled_of_gives (.cons ht hz)).2
  obtain ⟨ns,names,tail,rfl,hn,hcomma⟩ := hsettled.exists_namePlaces (by rw [hkind]; rfl) he
  have hfirst : ∀ x ∈ names.head?, x.kind ≠ .openParen := by
    intro x hx hopen
    have hclosed := (hw x (List.mem_append_left _ (hn.sublist.subset (List.mem_of_mem_head? hx)))).1
    rw [hopen] at hclosed
    contradiction
  have htail : Tail tail := tail_of_noGroups (fun u hu => hw u (List.mem_append_right _ hu)) he
    (hsettled.of_suffix ⟨t :: ns,by simp⟩)
  rw [List.append_assoc] at hz
  have hdecl : (p.withInput z).declaration t =
      .token e ((p.reportAll (names.map (Prod.mk kind))).withInput z') := by
    have hbinding := binding_gives_tail hn hfirst htail hcomma he hz kind t p
    unfold Pass.declaration
    rcases hk with ⟨hk,rfl⟩ | ⟨hk,rfl⟩ <;> rw [hk] <;> exact hbinding
  obtain ⟨htags,hcount⟩ := Pass.reportAll_all hp (names.map (Prod.mk kind))
  refine ⟨names,_,hn.ne_nil,hn.sublist.trans (List.sublist_append_left ..),hdecl,rfl,htags,hcount,?_⟩
  rw [Pass.declarations_eq,Pass.input_withInput,ht]
  dsimp only
  rw [Pass.withInput_withInput,hdecl]

def malformedSample : SourceFile := ⟨Utf8.encode "let mut =, let . * ]\nfn f()\n"⟩

def malformedLine : List Token :=
  [⟨.keyword,some .kwMut,[109,117,116],⟨1,4⟩⟩,⟨.identifier,none,[61],⟨1,8⟩⟩,.bare .comma ⟨1,9⟩,
    ⟨.keyword,some .kwLet,[108,101,116],⟨1,11⟩⟩,.bare .dot ⟨1,15⟩,.bare .star ⟨1,17⟩,.bare .closeSquare ⟨1,19⟩]

theorem tokens_malformedSample :
    tokens (Scanner.ofSource malformedSample.reader .standard) =
      (⟨.keyword,some .kwLet,[108,101,116],⟨1,0⟩⟩ :: (malformedLine ++ [.bare .terminator ⟨1,20⟩])) ++
        [⟨.keyword,some .kwFn,[102,110],⟨2,21⟩⟩,⟨.identifier,none,[102],⟨2,24⟩⟩,.bare .openParen ⟨2,25⟩,
          .bare .closeParen ⟨2,26⟩,.bare .terminator ⟨2,27⟩] := by
  let tiles : List Tile :=
    [.word 108 [101,116],.blank Byte.space,.word 109 [117,116],.blank Byte.space,.word 61 [],
      .punctuation Byte.comma .comma,.blank Byte.space,.word 108 [101,116],.blank Byte.space,
      .punctuation Byte.dot .dot,.blank Byte.space,.punctuation Byte.star .star,.blank Byte.space,
      .punctuation Byte.closeSquare .closeSquare,.blank Byte.newline,.word 102 [110],.blank Byte.space,.word 102 [],
      .punctuation Byte.openParen .openParen,.punctuation Byte.closeParen .closeParen,.blank Byte.newline]
  have htiles : Tile.Tiled tiles ∧ Tile.spell tiles = malformedSample.content := by decide +kernel
  rw [malformedSample.tokens_reader,SourceFile.tokens_tiles htiles.1 htiles.2]
  decide

theorem binding_line_malformed :
    ∃ z z' : Scanner Reader, ∃ names q,
      advance (Scanner.ofSource malformedSample.reader .standard) = .token ⟨.keyword,some .kwLet,[108,101,116],⟨1,0⟩⟩ z ∧
      Gives z (malformedLine ++ [.bare .terminator ⟨1,20⟩]) z' ∧ names ≠ [] ∧ names.Sublist malformedLine ∧
      ((Pass.start .standard #[] z).withInput z).declaration ⟨.keyword,some .kwLet,[108,101,116],⟨1,0⟩⟩ =
        .token (.bare .terminator ⟨1,20⟩) q ∧ q.input = z' := by
  obtain ⟨z',hz',-⟩ := exists_gives tokens_malformedSample
  cases hz' with
  | @cons _ z _ _ _ ha hz =>
    obtain ⟨⟨names,q,hne,hsub,hdecl,hq,-⟩,-⟩ := binding_line ha (.inr ⟨rfl,rfl⟩) (by decide) rfl hz
      (Pass.start .standard #[] z) rfl
    exact ⟨z,z',names,q,ha,hz,hne,hsub,hdecl,hq⟩

end SourceTags
