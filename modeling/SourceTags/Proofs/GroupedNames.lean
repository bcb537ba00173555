import SourceTags.Proofs.Nesting
import SourceTags.Proofs.WellFormed

/-! # Names in a group

A bracket before the names opens a group, and whether its own bracket closes it depends on what stands between them.
The reader notices the closing bracket right after a name and after a terminator in the place of a name. As the first
name or after a comma it is reported like any other token, and the search for a terminator passes it. So the groups
that are read as groups have a grammar of their own. Of such a group exactly the names are reported, whatever follows
it; in any other group a closing bracket is reported, or a token after the terminator that follows the group.
-/
namespace SourceTags
open TokenStream

section Names

variable {τ : Type} [TokenStream τ]

/-- A name and those that are read after it in the same declaration. -/
def namesFrom (grouped : Bool) (name : Token) (s : τ) : List Token :=
  match _h : afterName grouped s with
  | .name next rest => name :: namesFrom grouped next rest
  | .done _ _ | .endOfInput _ _ => [name]
termination_by remaining s
decreasing_by exact remaining_afterName (.inl _h)

/-- The tokens that are read in the place of a name after the keyword of a binding. -/
def bindingNames (s : τ) : List Token :=
  match readBindingName s with
  | .endOfInput _ _ => []
  | .token first rest =>
    if first.kind = .openParen then
      match readBindingName rest with
      | .endOfInput _ _ => []
      | .token name rest => namesFrom true name rest
    else namesFrom false first rest

theorem namesFrom_name {grouped : Bool} {name next : Token} {s rest : τ} (h : afterName grouped s = .name next rest) :
    namesFrom grouped name s = name :: namesFrom grouped next rest := by
  rw [namesFrom]
  split <;> simp_all

theorem namesFrom_last {grouped : Bool} {s : τ} (h : ∀ next rest, afterName grouped s ≠ .name next rest)
    (name : Token) : namesFrom grouped name s = [name] := by
  rw [namesFrom]
  split
  · next next rest hn => exact absurd hn (h next rest)
  · rfl
  · rfl

theorem mem_namesFrom (grouped : Bool) (name : Token) (s : τ) : name ∈ namesFrom grouped name s := by
  rw [namesFrom]
  split <;> simp

theorem namesFrom_tokens {grouped : Bool} {name : Token} {s : τ} :
    namesFrom grouped name (tokens s) = namesFrom grouped name s := by
  have ha := simulation_tokens.afterName grouped (rfl : tokens s = tokens s)
  cases hn : afterName grouped s with
  | endOfInput left rest =>
    cases hn' : afterName grouped (tokens s) with
    | endOfInput => rw [namesFrom_last (by simp [hn']),namesFrom_last (by simp [hn])]
    | name | done => rw [hn,hn'] at ha; exact absurd trivial ha
  | done t rest =>
    cases hn' : afterName grouped (tokens s) with
    | done => rw [namesFrom_last (by simp [hn']),namesFrom_last (by simp [hn])]
    | name | endOfInput => rw [hn,hn'] at ha; exact ha.elim
  | name next rest =>
    cases hn' : afterName grouped (tokens s) with
    | done | endOfInput => rw [hn,hn'] at ha; exact ha.elim
    | name next' rest' =>
      rw [hn,hn'] at ha
      obtain ⟨rfl,rfl⟩ := ha
      have hlt := remaining_afterName (.inl hn)
      rw [namesFrom_name hn,namesFrom_name hn',namesFrom_tokens]
termination_by remaining s

theorem bindingNames_tokens (s : τ) : bindingNames (tokens s) = bindingNames s := by
  unfold bindingNames
  rcases (simulation_tokens.readBindingName (rfl : tokens s = tokens s)).cases with
    ⟨u,r,_,_,hr,hr',rfl,rfl⟩ | ⟨_,_,_,_,hr,hr'⟩ | ⟨_,_,_,hnot⟩
  · rw [hr,hr']
    dsimp only
    split
    · rcases (simulation_tokens.readBindingName (rfl : tokens r = tokens r)).cases with
        ⟨w,x,_,_,hw,hw',rfl,rfl⟩ | ⟨_,_,_,_,hw,hw'⟩ | ⟨_,_,_,hnot⟩
      · rw [hw,hw']
        exact namesFrom_tokens
      · rw [hw,hw']
      · exact absurd trivial hnot
    · exact namesFrom_tokens
  · rw [hr,hr']
  · exact absurd trivial hnot

namespace Pass

omit [TokenStream τ] in
theorem reportAll_withInput (p : Pass τ) (s : τ) (found : List (DeclarationKind × Token)) :
    (p.withInput s).reportAll found = (p.reportAll found).withInput s := by
  induction found generalizing p with
  | nil => rfl
  | cons d found ih => exact ih (p.report d.1 d.2)

theorem rest_names (kind : DeclarationKind) (grouped : Bool) (name : Token) (p : Pass τ) :
    ∃ s, (p.names kind grouped name).rest =
      (p.reportAll ((namesFrom grouped name p.input).map (Prod.mk kind))).withInput s := by
  rw [names_eq]
  cases hn : afterName grouped p.input with
  | endOfInput left rest =>
    rw [namesFrom_last (by simp [hn])]
    exact ⟨rest,rfl⟩
  | done t rest =>
    rw [namesFrom_last (by simp [hn])]
    exact ⟨rest,rfl⟩
  | name next rest =>
    have hlt := remaining_afterName (.inl hn)
    obtain ⟨s,hs⟩ := rest_names kind grouped next ((p.report kind name).withInput rest)
    refine ⟨s,hs.trans ?_⟩
    rw [namesFrom_name hn,reportAll_withInput,withInput_withInput]
    rfl
termination_by remaining p.input

theorem rest_binding (p : Pass τ) (kind : DeclarationKind) (t : Token) :
    ∃ s, (p.binding kind t).rest = (p.reportAll ((bindingNames p.input).map (Prod.mk kind))).withInput s := by
  have hnames : ∀ grouped name s, ∃ s', ((p.withInput s).names kind grouped name).rest =
      (p.reportAll ((namesFrom grouped name s).map (Prod.mk kind))).withInput s' := by
    intro grouped name s
    obtain ⟨s',hs⟩ := rest_names kind grouped name (p.withInput s)
    exact ⟨s',by rw [hs,reportAll_withInput,withInput_withInput,input_withInput]⟩
  unfold binding bindingNames
  cases readBindingName p.input with
  | endOfInput _ rest => exact ⟨rest,rfl⟩
  | token first rest =>
    dsimp only
    split
    · cases readBindingName rest with
      | endOfInput _ rest => exact ⟨rest,rfl⟩
      | token name rest => exact hnames ..
    · exact hnames ..

theorem declarations_endOfInput {t left : Token} {p q : Pass (List Token)} {s : List Token}
    (ht : t.keyword = some .kwLet) (h : (p.withInput s).binding .binding t = .endOfInput left q) :
    (p.withInput (t :: s)).declarations = (left,q) := by
  rw [declarations_eq,input_withInput,advance_cons]
  dsimp only
  rw [withInput_withInput]
  unfold declaration
  rw [ht]
  dsimp only
  rw [h]

end Pass

end Names

/-- What stands between two names of a group: a comma, or the rest of a declaration with the terminator after it. -/
inductive NameSeparator : List Token → Prop
  | comma {t} : t.kind = .comma → NameSeparator [t]
  | tail {w e} : Tail w → (∀ t ∈ w.head?, t.kind ≠ .comma ∧ t.kind ≠ .closeParen) → e.kind = .terminator →
      NameSeparator (w ++ [e])

/-- What follows a name of a group up to the bracket that closes the group, with the names in it. The bracket stands
right after a name, or after a terminator in the place of a name. -/
inductive NamesClosed : List Token → List Token → Prop
  | tuple {c} : c.kind = .closeParen → NamesClosed [c] []
  | list {w e v c} : Tail w → (∀ t ∈ w.head?, t.kind ≠ .comma ∧ t.kind ≠ .closeParen) → e.kind = .terminator →
      NamePlace v c → c.kind = .closeParen → NamesClosed (w ++ e :: v) []
  | name {sep v name w names} : NameSeparator sep → NamePlace v name → name.kind ≠ .closeParen →
      NamesClosed w names → NamesClosed (sep ++ (v ++ w)) (name :: names)

/-- What follows the opening bracket of a group, up to the bracket that is taken for its end. -/
inductive GroupedNames : List Token → List Token → Prop
  | intro {v name w names} : NamePlace v name → name.kind ≠ .closeParen → NamesClosed w names →
      GroupedNames (v ++ w) (name :: names)

/-- The tokens after a name that lead to another one: a comma, or in a group the rest of a declaration with the
terminator after it, and the place of the name. Only after a comma the name can be a closing bracket. -/
inductive NextName (grouped : Bool) : List Token → Token → Prop
  | comma {c v name} : c.kind = .comma → NamePlace v name → NextName grouped (c :: v) name
  | terminator {w e v name} : grouped = true → Tail w → (∀ t ∈ w.head?, t.kind ≠ .comma ∧ t.kind ≠ .closeParen) →
      e.kind = .terminator → NamePlace v name → name.kind ≠ .closeParen → NextName grouped (w ++ e :: v) name

section Groups

variable {sep v w names : List Token} {c e name next : Token}

theorem afterName_comma {t : Token} (ht : t.kind = .comma) (hv : NamePlace v next) (grouped : Bool)
    (rest : List Token) : afterName grouped (t :: (v ++ rest)) = .name next rest := by
  unfold afterName
  rw [advance_cons]
  dsimp only
  rw [if_pos ht,afterComma,readBindingName_place hv]

theorem afterName_separator (hs : NameSeparator sep) (hv : NamePlace v next) (hn : next.kind ≠ .closeParen)
    (rest : List Token) : afterName true (sep ++ (v ++ rest)) = .name next rest := by
  cases hs with
  | comma ht => exact afterName_comma ht hv true rest
  | @tail w e hw hh he =>
    rw [List.append_assoc,List.singleton_append,afterName_tail hw (fun t ht => ⟨(hh t ht).1,fun _ => (hh t ht).2⟩) he,
      if_pos rfl,afterTerminator,readBindingName_place hv]
    exact if_neg hn

theorem NamesClosed.namesFrom (h : NamesClosed w names) (name : Token) (rest : List Token) :
    namesFrom true name (w ++ rest) = name :: names := by
  induction h generalizing name with
  | @tuple c hc =>
    apply namesFrom_last
    intro next rest'
    unfold afterName
    rw [List.singleton_append,advance_cons]
    dsimp only
    rw [if_neg (by simp [hc])]
    cases (skipTypeExpr c rest).andThen seekTerminator <;> simp [hc]
  | @list w e v c hw hh he hv hc =>
    apply namesFrom_last
    intro next rest'
    rw [List.append_assoc,List.cons_append,afterName_tail hw (fun t ht => ⟨(hh t ht).1,fun _ => (hh t ht).2⟩) he,
      if_pos rfl,afterTerminator,readBindingName_place hv]
    simp [hc]
  | @name sep v next w names hs hv hn _ ih =>
    rw [List.append_assoc,List.append_assoc,namesFrom_name (afterName_separator hs hv hn _),ih]

theorem NamesClosed.kind_ne (h : NamesClosed w names) : ∀ n ∈ names, n.kind ≠ .closeParen := by
  induction h with
  | tuple | list => simp
  | name _ _ hn _ ih => simpa [hn] using ih

theorem exists_namePlace (hc : c.kind = .closeParen) (w : List Token) :
    ∃ v name more, w ++ [c] = v ++ more ∧ NamePlace v name ∧
      (name.kind = .closeParen ∨ ∃ w', w = v ++ w' ∧ more = w' ++ [c]) := by
  have hplain : ¬c.hasKeyword .kwMut := by simp [Token.hasKeyword,hc]
  cases w with
  | nil => exact ⟨[c],c,[],rfl,.plain hplain,.inl hc⟩
  | cons t w =>
    by_cases ht : t.hasKeyword .kwMut
    · cases w with
      | nil => exact ⟨[t,c],c,[],rfl,.mutable ht,.inl hc⟩
      | cons u w => exact ⟨[t,u],u,w ++ [c],rfl,.mutable ht,.inr ⟨w,rfl,rfl⟩⟩
    · exact ⟨[t],t,w ++ [c],rfl,.plain ht,.inr ⟨w,rfl,rfl⟩⟩

theorem afterName_nextName {grouped : Bool} {u : List Token} (h : NextName grouped u name) (rest : List Token) :
    afterName grouped (u ++ rest) = .name name rest := by
  cases h with
  | comma hc hv => exact afterName_comma hc hv grouped rest
  | terminator hg hw hh he hv hn =>
    rw [List.append_assoc,hg,List.cons_append,List.append_cons]
    exact afterName_separator (.tail hw hh he) hv hn rest

theorem nextName_of_afterName {grouped : Bool} {s rest : List Token} (h : afterName grouped s = .name next rest) :
    ∃ u, s = u ++ rest ∧ NextName grouped u next := by
  unfold afterName at h
  cases s with
  | nil => contradiction
  | cons t s =>
    rw [advance_cons] at h
    dsimp only at h
    split at h
    · next ht =>
      unfold afterComma at h
      split at h
      · contradiction
      · next hr =>
        obtain ⟨rfl,rfl⟩ := AfterName.name.inj h
        obtain ⟨v,rfl,hv⟩ := namePlace_of_readBindingName hr
        exact ⟨t :: v,rfl,.comma ht hv⟩
    · next ht =>
      split at h
      · contradiction
      · next e more hskip =>
        split at h
        · next hgroup =>
          unfold afterTerminator at h
          split at h
          · contradiction
          · next hr =>
            split at h
            · contradiction
            · next hn =>
              obtain ⟨rfl,rfl⟩ := AfterName.name.inj h
              obtain ⟨v,rfl,hv⟩ := namePlace_of_readBindingName hr
              obtain ⟨w,hw,htail⟩ := tail_of_skipTypeExpr hskip
              obtain ⟨_,_,-,hseek⟩ := Reading.andThen_eq_token.mp hskip
              obtain ⟨hg,hclose⟩ := Bool.and_eq_true_iff.mp hgroup
              have hhead : ∀ u ∈ w.head?, u.kind ≠ .comma ∧ u.kind ≠ .closeParen := by
                refine head?_of_isPrefix ?_ ⟨_,hw.symm⟩
                simpa using ⟨ht,by simpa using hclose⟩
              refine ⟨w ++ e :: v,by rw [hw,List.append_assoc]; rfl,?_⟩
              exact .terminator hg htail hhead (kind_of_seekTerminator hseek) hv hn
        · contradiction

/-- A name in a group follows a separator; only after a comma it can be a closing bracket. -/
theorem separator_of_afterName {s rest : List Token} (h : afterName true s = .name next rest) :
    ∃ sep v, s = sep ++ (v ++ rest) ∧ NameSeparator sep ∧ NamePlace v next ∧
      (next.kind = .closeParen → ∀ t ∈ s.head?, t.kind = .comma) := by
  obtain ⟨u,rfl,hu⟩ := nextName_of_afterName h
  cases hu with
  | @comma c v _ hc hv => exact ⟨[c],v,rfl,.comma hc,hv,by simp [hc]⟩
  | @terminator w e v _ _ hw hh he hv hn =>
    exact ⟨w ++ [e],v,by simp,.tail hw hh he,hv,fun hk => absurd hk hn⟩

/-- From the name on a closing bracket is reported, or a token after the terminator. -/
def Escapes (name : Token) (w : List Token) (e : Token) (later : List Token) : Prop :=
  (∃ n ∈ namesFrom true name (w ++ e :: later), n.kind = .closeParen) ∨
    namesFrom true name (w ++ e :: later) ≠ namesFrom true name (w ++ [e])

theorem Escapes.of_next {later : List Token} (ha : ∀ rest, afterName true (v ++ rest) = .name next (w ++ rest))
    (h : Escapes next w e later) : Escapes name v e later := by
  unfold Escapes
  rw [namesFrom_name (ha _),namesFrom_name (ha _)]
  refine h.imp ?_ ?_
  · rintro ⟨n,hn,hk⟩
    exact ⟨n,List.mem_cons_of_mem _ hn,hk⟩
  · intro hne heq
    exact hne (List.cons.inj heq).2

theorem escapes_of_tail {w₀ later : List Token} {e₀ : Token} (hw : Tail w₀)
    (hh : ∀ t ∈ (v ++ [e]).head?, t.kind ≠ .comma ∧ t.kind ≠ .closeParen) (he₀ : e₀.kind = .terminator)
    (hn : ¬next.hasKeyword .kwMut ∧ next.kind ≠ .closeParen) {rest : List Token}
    (hsplit : v ++ e :: later = w₀ ++ e₀ :: next :: rest) (hlater : rest.length < later.length) :
    Escapes name v e later := by
  have hhead : ∀ t ∈ w₀.head?, t.kind ≠ .comma ∧ t.kind ≠ .closeParen := by
    refine head?_of_isPrefix ?_ ⟨_,hsplit.symm⟩
    simpa using hh
  have hfull : afterName true (v ++ e :: later) = .name next rest := by
    rw [hsplit,List.append_cons]
    exact afterName_separator (.tail hw hhead he₀) (.plain hn.1) hn.2 rest
  right
  intro heq
  have hcut : ∃ y more, afterName true (v ++ [e]) = .name y more := by
    by_contra hno
    have hlast : ∀ y more, afterName true (v ++ [e]) ≠ .name y more := fun y more hy => hno ⟨y,more,hy⟩
    rw [namesFrom_name hfull,namesFrom_last hlast] at heq
    have hmem := mem_namesFrom true next rest
    rw [(List.cons.inj heq).2] at hmem
    contradiction
  obtain ⟨y,more,hy⟩ := hcut
  obtain ⟨sep,u,hs,hsep,hu,hcomma⟩ := separator_of_afterName hy
  have hclose : y.kind ≠ .closeParen := by
    intro hk
    obtain ⟨t,l,hl⟩ := List.exists_cons_of_ne_nil (l := v ++ [e]) (by simp)
    rw [hl] at hcomma hh
    exact (hh t rfl).1 (hcomma hk t rfl)
  have hlong : afterName true (v ++ e :: later) = .name y (more ++ later) := by
    rw [List.append_cons,hs,List.append_assoc,List.append_assoc]
    exact afterName_separator hsep hu hclose _
  obtain ⟨-,rfl⟩ := AfterName.name.inj (hfull.symm.trans hlong)
  rw [List.length_append] at hlater
  omega

/-- The tokens begin with what closes a group, or reading them with more to come reports what it must not. -/
def ClosedOrEscapes (name : Token) (w : List Token) (e : Token) (later : List Token) : Prop :=
  (∃ v more names, w = v ++ more ∧ NamesClosed v names) ∨ Escapes name w e later

theorem ClosedOrEscapes.of_next {later : List Token} (hs : NameSeparator sep) (hv : NamePlace v next)
    (hn : next.kind ≠ .closeParen) (h : ClosedOrEscapes next w e later) :
    ClosedOrEscapes name (sep ++ (v ++ w)) e later := by
  rcases h with ⟨v',more,names,rfl,hclosed⟩ | h
  · exact .inl ⟨sep ++ (v ++ v'),more,next :: names,by simp,.name hs hv hn hclosed⟩
  · refine .inr (h.of_next ?_)
    intro rest
    rw [List.append_assoc,List.append_assoc]
    exact afterName_separator hs hv hn _

def nameBeyond (n : ℕ) (e : Token) : List Token := closers n ++ [e,.bare .identifier ⟨0,0⟩]

theorem exists_next {n : ℕ} {a w₁ : List Token} {e₀ : Token} (he₀ : e₀.kind = .terminator)
    (h : e :: (closers n ++ [e]) = a ++ e₀ :: w₁) :
    ∃ next rest, w₁ ++ [.bare .identifier ⟨0,0⟩] = next :: rest ∧ ¬next.hasKeyword .kwMut ∧
      next.kind ≠ .closeParen ∧ rest.length < (nameBeyond n e).length := by
  cases a with
  | nil =>
    obtain ⟨-,rfl⟩ := List.cons.inj h
    exact ⟨_,_,rfl,by decide,by decide,by simp [nameBeyond,closers]⟩
  | cons t a =>
    rw [List.cons_append] at h
    obtain ⟨-,h⟩ := List.cons.inj h
    rcases List.eq_nil_or_concat w₁ with rfl | ⟨w₂,z,rfl⟩
    · exact ⟨_,_,rfl,by decide,by decide,by simp [nameBeyond]⟩
    · rw [List.concat_eq_append,← List.cons_append,← List.append_assoc] at h
      have hmem : e₀ ∈ closers n := by
        rw [(List.append_inj' h rfl).1]
        simp
      rcases kind_of_mem_closers hmem with hk | hk | hk <;> simp [he₀] at hk

/-- Where the search for a terminator has passed the bracket, a name is read that follows a later terminator. -/
theorem escapes_behind {n : ℕ} {w a w₁ : List Token} {e₀ : Token} (htail : Tail (w ++ c :: a))
    (hh : ∀ t ∈ (w ++ [c] ++ [e]).head?, t.kind ≠ .comma ∧ t.kind ≠ .closeParen) (he₀ : e₀.kind = .terminator)
    (h : e :: (closers n ++ [e]) = a ++ e₀ :: w₁) : Escapes name (w ++ [c]) e (nameBeyond n e) := by
  obtain ⟨next,rest,hnext,hmut,hn,hlater⟩ := exists_next he₀ h
  refine escapes_of_tail htail hh he₀ ⟨hmut,hn⟩ ?_ hlater
  rw [← hnext,nameBeyond]
  simpa using congrArg (w ++ c :: · ++ [Token.bare .identifier ⟨0,0⟩]) h

theorem behind_or_before {l m w₀ w₁ : List Token} {e₀ : Token} (hne : c ≠ e₀) (h : l ++ c :: m = w₀ ++ e₀ :: w₁) :
    (∃ a, w₀ = l ++ c :: a ∧ m = a ++ e₀ :: w₁) ∨ ∃ u, l = w₀ ++ [e₀] ++ u := by
  rcases List.append_eq_append_iff.mp h with ⟨a,rfl,ha⟩ | ⟨u,rfl,hu⟩
  · cases a with
    | nil => exact absurd (List.cons.inj ha).1 hne
    | cons t a =>
      obtain ⟨rfl,hm⟩ := List.cons.inj ha
      exact .inl ⟨a,rfl,hm⟩
  · cases u with
    | nil => exact absurd (List.cons.inj hu).1.symm hne
    | cons t u =>
      obtain ⟨rfl,-⟩ := List.cons.inj hu
      exact .inr ⟨u,List.append_cons ..⟩

/-- What follows a name, up to any closing bracket, closes the group or lets the reading escape, if enough closing
brackets of all kinds and one more name follow. -/
theorem closedOrEscapes {n : ℕ} {w : List Token} {name : Token} (hc : c.kind = .closeParen) (he : e.kind = .terminator)
    (hm : Matched (w ++ c :: e :: closers n)) : ClosedOrEscapes name (w ++ [c]) e (nameBeyond n e) := by
  cases w with
  | nil => exact .inl ⟨[c],[],[],rfl,.tuple hc⟩
  | cons x w =>
    by_cases hx : x.kind = .closeParen
    · exact .inl ⟨[x],w ++ [c],[],rfl,.tuple hx⟩
    have hseparated : ∀ {sep u}, NameSeparator sep → sep ≠ [] → x :: w = sep ++ u →
        (∀ {v next more}, NamePlace v next → next.kind = .closeParen → u ++ [c] = v ++ more →
          ClosedOrEscapes name (x :: w ++ [c]) e (nameBeyond n e)) →
        ClosedOrEscapes name (x :: w ++ [c]) e (nameBeyond n e) := by
      intro sep u hs hne hw hclose
      obtain ⟨v,next,more,hmore,hv,hnext⟩ := exists_namePlace hc u
      by_cases hn : next.kind = .closeParen
      · exact hclose hv hn hmore
      obtain ⟨w',rfl,rfl⟩ := hnext.resolve_left hn
      have hlt : w'.length < (x :: w).length := by
        have hpos := List.length_pos_iff.mpr hne
        rw [hw,List.length_append,List.length_append]
        omega
      rw [hw] at hm ⊢
      have hm' : Matched (w' ++ c :: e :: closers n) := hm.of_suffix ⟨sep ++ v,by simp⟩
      have hrest : ClosedOrEscapes next (w' ++ [c]) e (nameBeyond n e) := closedOrEscapes hc he hm'
      have hthere : ClosedOrEscapes name (sep ++ (v ++ (w' ++ [c]))) e (nameBeyond n e) := hrest.of_next hs hv hn
      simpa using hthere
    by_cases hcomma : x.kind = .comma
    · refine hseparated (.comma hcomma) (by simp) rfl ?_
      intro v next more hv hn hmore
      right; left
      refine ⟨next,?_,hn⟩
      rw [List.cons_append,hmore,List.cons_append,List.append_assoc,namesFrom_name (afterName_comma hcomma hv ..)]
      exact List.mem_cons_of_mem _ (mem_namesFrom ..)
    have hdot : ∀ t ∈ (x :: w ++ c :: e :: closers n).getLast?, t.kind ≠ .dot := by
      intro t ht hk
      rw [List.append_cons,List.append_cons] at ht
      rcases kind_of_mem_closers (mem_closers_of_getLast? ht) with hk' | hk' | hk' <;> simp [hk] at hk'
    obtain ⟨w₀,e₀,w₁,hsplit,he₀,htail⟩ := hm.exists_tail hdot he
    have hne : c ≠ e₀ := by
      rintro rfl
      rw [hc] at he₀
      contradiction
    have hplaces : x :: w ++ c :: (e :: (closers n ++ [e])) = w₀ ++ e₀ :: w₁ := by simpa using hsplit
    rcases behind_or_before hne hplaces with ⟨a,rfl,ha⟩ | ⟨u,hw⟩
    · exact .inr (escapes_behind htail (by simp [hx,hcomma]) he₀ ha)
    · have hhead : ∀ t ∈ w₀.head?, t.kind ≠ .comma ∧ t.kind ≠ .closeParen := by
        refine head?_of_isPrefix ?_ ⟨[e₀] ++ u,(List.append_assoc ..).symm.trans hw.symm⟩
        simp [hx,hcomma]
      refine hseparated (.tail htail hhead he₀) (by simp) hw ?_
      intro v next more hv hn hmore
      refine .inl ⟨w₀ ++ e₀ :: v,more,[],?_,.list htail hhead he₀ hv hn⟩
      rw [hw,List.append_assoc,hmore]
      simp
termination_by w.length

theorem bindingNames_openParen {o : Token} {u : List Token} (hv : NamePlace v o) (ho : o.kind = .openParen)
    (hu : NamePlace u name) (rest : List Token) : bindingNames (v ++ (u ++ rest)) = namesFrom true name rest := by
  unfold bindingNames
  rw [readBindingName_place hv]
  dsimp only
  rw [if_pos ho,readBindingName_place hu]

theorem GroupedNames.bindingNames {o : Token} (h : GroupedNames w names) (hv : NamePlace v o) (ho : o.kind = .openParen)
    (rest : List Token) : bindingNames (v ++ (w ++ rest)) = names := by
  cases h with
  | intro hu _ hclosed => rw [List.append_assoc,bindingNames_openParen hv ho hu,hclosed.namesFrom]

theorem GroupedNames.kind_ne (h : GroupedNames w names) : ∀ n ∈ names, n.kind ≠ .closeParen := by
  cases h with
  | intro _ hn hclosed => simpa [hn] using hclosed.kind_ne

/-- No closing bracket is read as a name, and the names are those that are read where the input ends with the first
terminator outside all groups that follows the bracket, so none stands after it. -/
structure EndsWithBracket (v body : List Token) (c : Token) : Prop where
  kind_ne (after : List Token) : ∀ n ∈ bindingNames (v ++ (body ++ c :: after)), n.kind ≠ .closeParen
  none_after {post : List Token} {e : Token} (rest : List Token) : Nested false post → e.kind = .terminator →
    bindingNames (v ++ (body ++ c :: (post ++ e :: rest))) = bindingNames (v ++ (body ++ c :: (post ++ [e])))

theorem endsWithBracket_of_groupedNames {o : Token} {body more : List Token} (hv : NamePlace v o)
    (ho : o.kind = .openParen) (hw : body ++ [c] = w ++ more) (h : GroupedNames w names) :
    EndsWithBracket v body c := by
  have hnames : ∀ after, bindingNames (v ++ (body ++ c :: after)) = names := by
    intro after
    rw [List.append_cons,hw,List.append_assoc]
    exact h.bindingNames hv ho _
  constructor
  · intro after
    rw [hnames]
    exact h.kind_ne
  · intro post e rest _ _
    rw [hnames,hnames]

theorem exists_groupedNames {o : Token} {body : List Token} (hv : NamePlace v o) (ho : o.kind = .openParen)
    (hc : c.kind = .closeParen) (h : EndsWithBracket v body c) :
    ∃ w more names, body ++ [c] = w ++ more ∧ GroupedNames w names := by
  let e : Token := .bare .terminator ⟨0,0⟩
  obtain ⟨u,name,more,hmore,hu,hname⟩ := exists_namePlace hc body
  have hgroup : ∀ after, bindingNames (v ++ (body ++ c :: after)) = namesFrom true name (more ++ after) := by
    intro after
    rw [List.append_cons,hmore,List.append_assoc]
    exact bindingNames_openParen hv ho hu _
  let n := (body ++ [c,e]).length
  have hkind := h.kind_ne (e :: nameBeyond n e)
  have hcut := h.none_after (e := e) (nameBeyond n e) .nil rfl
  rw [hgroup] at hkind
  rw [List.nil_append,List.nil_append,hgroup,hgroup] at hcut
  have hn : name.kind ≠ .closeParen := hkind name (mem_namesFrom ..)
  obtain ⟨w,rfl,rfl⟩ := hname.resolve_left hn
  have hm : Matched (u ++ w ++ [c,e] ++ closers n) := matched_closers (Nat.le_refl _)
  have hm' : Matched (w ++ c :: e :: closers n) := hm.of_suffix ⟨u,by simp⟩
  have hdecided : ClosedOrEscapes name (w ++ [c]) e (nameBeyond n e) := closedOrEscapes hc rfl hm'
  rcases hdecided with ⟨w',more,names,hw',hclosed⟩ | ⟨y,hy,hyk⟩ | hne
  · exact ⟨u ++ w',more,name :: names,by rw [hmore,hw',List.append_assoc],.intro hu hn hclosed⟩
  · exact absurd hyk (hkind y hy)
  · exact absurd hcut hne

/-- A binding reports the tokens that are read in the place of a name. In a group no closing bracket is among them
and no token after the declaration, exactly if the group begins with what is read as a group of names. -/
theorem binding_group {τ : Type} [TokenStream τ] {o : Token} {body : List Token} (hv : NamePlace v o)
    (hg : Group .openParen (o :: (body ++ [c]))) :
    (∀ (p : Pass τ) kind t, ∃ s, (p.binding kind t).rest =
      (p.reportAll ((bindingNames (tokens p.input)).map (Prod.mk kind))).withInput s) ∧
    (EndsWithBracket v body c ↔ ∃ w more names, body ++ [c] = w ++ more ∧ GroupedNames w names) := by
  have hbrackets : o.kind = .openParen ∧ c.kind = .closeParen := by
    generalize hl : o :: (body ++ [c]) = l at hg
    cases hg with
    | @intro _ _ w' c' hcloser ho _ hc =>
      obtain ⟨rfl,hbody⟩ := List.cons.inj hl
      obtain rfl : c = c' := by simpa using (List.append_inj' hbody rfl).2
      exact ⟨ho,hc.trans (Option.some.inj hcloser).symm⟩
  refine ⟨?_,?_,?_⟩
  · intro p kind t
    rw [bindingNames_tokens]
    exact p.rest_binding kind t
  · exact exists_groupedNames hv hbrackets.1 hbrackets.2
  · rintro ⟨w,more,names,hw,h⟩
    exact endsWithBracket_of_groupedNames hv hbrackets.1 hw h

end Groups

def groupSample : SourceFile := ⟨Utf8.encode "let (a int\nb) = x\nlet c = d\n"⟩

def groupBody : List Token :=
  [⟨.identifier,none,[97],⟨1,5⟩⟩,⟨.identifier,none,[105,110,116],⟨1,7⟩⟩,.bare .terminator ⟨1,10⟩,
    ⟨.identifier,none,[98],⟨2,11⟩⟩]

def groupRest : List Token :=
  [⟨.identifier,none,[61],⟨2,14⟩⟩,⟨.identifier,none,[120],⟨2,16⟩⟩,.bare .terminator ⟨2,17⟩,
    ⟨.keyword,some .kwLet,[108,101,116],⟨3,18⟩⟩,⟨.identifier,none,[99],⟨3,22⟩⟩,⟨.identifier,none,[61],⟨3,24⟩⟩,
    ⟨.identifier,none,[100],⟨3,26⟩⟩,.bare .terminator ⟨3,27⟩]

theorem tokens_groupSample :
    tokens (Scanner.ofSource groupSample.reader .standard) =
      ⟨.keyword,some .kwLet,[108,101,116],⟨1,0⟩⟩ ::
        ([.bare .openParen ⟨1,4⟩] ++ (groupBody ++ .bare .closeParen ⟨2,12⟩ :: groupRest)) := by
  let tiles : List Tile :=
    [.word 108 [101,116],.blank Byte.space,.punctuation Byte.openParen .openParen,.word 97 [],.blank Byte.space,
      .word 105 [110,116],.blank Byte.newline,.word 98 [],.punctuation Byte.closeParen .closeParen,.blank Byte.space,
      .word 61 [],.blank Byte.space,.word 120 [],.blank Byte.newline,.word 108 [101,116],.blank Byte.space,
      .word 99 [],.blank Byte.space,.word 61 [],.blank Byte.space,.word 100 [],.blank Byte.newline]
  have htiles : Tile.Tiled tiles ∧ Tile.spell tiles = groupSample.content := by decide +kernel
  rw [groupSample.tokens_reader,SourceFile.tokens_tiles htiles.1 htiles.2]
  decide

theorem groupedNames_groupBody :
    GroupedNames (groupBody ++ [.bare .closeParen ⟨2,12⟩])
      [⟨.identifier,none,[97],⟨1,5⟩⟩,⟨.identifier,none,[98],⟨2,11⟩⟩] := by
  have htail : Tail [⟨.identifier,none,[105,110,116],⟨1,7⟩⟩] := .name rfl (by decide) .nil
  have hseparator : NameSeparator ([⟨.identifier,none,[105,110,116],⟨1,7⟩⟩] ++ [.bare .terminator ⟨1,10⟩]) :=
    .tail htail (by simp) rfl
  have hplace : NamePlace [⟨.identifier,none,[98],⟨2,11⟩⟩] ⟨.identifier,none,[98],⟨2,11⟩⟩ := .plain (by decide)
  have hfirst : NamePlace [⟨.identifier,none,[97],⟨1,5⟩⟩] ⟨.identifier,none,[97],⟨1,5⟩⟩ := .plain (by decide)
  have hclosed := NamesClosed.name hseparator hplace (by decide) (.tuple (c := .bare .closeParen ⟨2,12⟩) rfl)
  have h := GroupedNames.intro hfirst (by decide) hclosed
  exact h

theorem binding_group_sample :
    ∃ z : Scanner Reader,
      advance (Scanner.ofSource groupSample.reader .standard) = .token ⟨.keyword,some .kwLet,[108,101,116],⟨1,0⟩⟩ z ∧
      EndsWithBracket [.bare .openParen ⟨1,4⟩] groupBody (.bare .closeParen ⟨2,12⟩) ∧
      ∃ s, ((Pass.start .standard #[] z).binding .binding .fresh).rest =
        ((Pass.start .standard #[] z).reportAll
          [(.binding,⟨.identifier,none,[97],⟨1,5⟩⟩),(.binding,⟨.identifier,none,[98],⟨2,11⟩⟩)]).withInput s := by
  have hbody : Balanced .openParen .closeParen groupBody := by
    repeat' first | exact .nil | refine .token (by decide) (by decide) ?_
  have hgroup : Group .openParen (.bare .openParen ⟨1,4⟩ :: (groupBody ++ [.bare .closeParen ⟨2,12⟩])) :=
    .intro rfl rfl hbody rfl
  have hplace : NamePlace [.bare .openParen ⟨1,4⟩] (.bare .openParen ⟨1,4⟩) := .plain (by decide)
  cases ha : advance (Scanner.ofSource groupSample.reader .standard) with
  | endOfInput left rest =>
    have htokens := tokens_groupSample
    rw [tokens_endOfInput ha] at htokens
    contradiction
  | token t z =>
    have htokens := tokens_groupSample
    rw [tokens_token ha] at htokens
    obtain ⟨rfl,hz⟩ := List.cons.inj htokens
    obtain ⟨hreports,hends⟩ := binding_group (τ := Scanner Reader) hplace hgroup
    refine ⟨z,rfl,hends.mpr ⟨_,[],_,(List.append_nil _).symm,groupedNames_groupBody⟩,?_⟩
    obtain ⟨s,hs⟩ := hreports (Pass.start .standard #[] z) .binding .fresh
    have hnames : bindingNames (tokens z) =
        [⟨.identifier,none,[97],⟨1,5⟩⟩,⟨.identifier,none,[98],⟨2,11⟩⟩] := by
      rw [hz]
      exact groupedNames_groupBody.bindingNames hplace rfl groupRest
    change _ = (Pass.reportAll _ ((bindingNames (tokens z)).map _)).withInput s at hs
    rw [hnames] at hs
    exact ⟨s,hs⟩

def commaSample : SourceFile := ⟨Utf8.encode "let (a,) = x\n"⟩

def commaBody : List Token := [⟨.identifier,none,[97],⟨1,5⟩⟩,.bare .comma ⟨1,6⟩]

def commaRest : List Token := [⟨.identifier,none,[61],⟨1,9⟩⟩,⟨.identifier,none,[120],⟨1,11⟩⟩]

theorem tokens_commaSample :
    commaSample.tokens .standard =
      ⟨.keyword,some .kwLet,[108,101,116],⟨1,0⟩⟩ :: .bare .openParen ⟨1,4⟩ ::
        (commaBody ++ [.bare .closeParen ⟨1,7⟩] ++ (commaRest ++ [.bare .terminator ⟨1,12⟩])) := by
  let tiles : List Tile :=
    [.word 108 [101,116],.blank Byte.space,.punctuation Byte.openParen .openParen,.word 97 [],
      .punctuation Byte.comma .comma,.punctuation Byte.closeParen .closeParen,.blank Byte.space,.word 61 [],
      .blank Byte.space,.word 120 [],.blank Byte.newline]
  have htiles : Tile.Tiled tiles ∧ Tile.spell tiles = commaSample.content := by decide +kernel
  rw [SourceFile.tokens_tiles htiles.1 htiles.2]
  decide

/-- The bracket that closes the group after a comma is reported as a name without a text. -/
theorem tagSource_commaSample :
    Group .openParen (.bare .openParen ⟨1,4⟩ :: (commaBody ++ [.bare .closeParen ⟨1,7⟩])) ∧
    commaSample.tokens .standard =
      ⟨.keyword,some .kwLet,[108,101,116],⟨1,0⟩⟩ :: .bare .openParen ⟨1,4⟩ ::
        (commaBody ++ [.bare .closeParen ⟨1,7⟩] ++ (commaRest ++ [.bare .terminator ⟨1,12⟩])) ∧
    tagSource .standard .standard #[] commaSample.reader =
      (#[⟨"a",.binding,⟨1,5⟩⟩,⟨"",.binding,⟨1,7⟩⟩],2) := by
  have hbody : Balanced .openParen .closeParen commaBody :=
    .token (by decide) (by decide) (.token (by decide) (by decide) .nil)
  refine ⟨.intro rfl rfl hbody rfl,tokens_commaSample,?_⟩
  have hname : NamePlace [⟨.identifier,none,[97],⟨1,5⟩⟩] ⟨.identifier,none,[97],⟨1,5⟩⟩ := .plain (by decide)
  have hbracket : NamePlace [.bare .closeParen ⟨1,7⟩] (.bare .closeParen ⟨1,7⟩) := .plain (by decide)
  have htail : Tail commaRest := .name rfl (by decide) (.token (by decide) (by simp [NoGroupAhead]) .nil)
  have hcomma := afterName_comma (t := .bare .comma ⟨1,6⟩) rfl hbracket true (commaRest ++ [.bare .terminator ⟨1,12⟩])
  have hend : afterName true (commaRest ++ [.bare .terminator ⟨1,12⟩]) = afterTerminator (.bare .terminator ⟨1,12⟩) [] :=
    afterName_tail htail (by decide) rfl
  let after : List Token := .bare .comma ⟨1,6⟩ :: ([.bare .closeParen ⟨1,7⟩] ++ (commaRest ++ [.bare .terminator ⟨1,12⟩]))
  have hfirst : readBindingName (⟨.identifier,none,[97],⟨1,5⟩⟩ :: after) = .token ⟨.identifier,none,[97],⟨1,5⟩⟩ after :=
    readBindingName_place hname
  have hbinding : ∀ (t : Token) (p : Pass (List Token)), (p.withInput (.bare .openParen ⟨1,4⟩ ::
      (commaBody ++ [.bare .closeParen ⟨1,7⟩] ++ (commaRest ++ [.bare .terminator ⟨1,12⟩])))).binding .binding t =
      .endOfInput (.bare .terminator ⟨1,12⟩) ((p.reportAll
        [(.binding,⟨.identifier,none,[97],⟨1,5⟩⟩),(.binding,.bare .closeParen ⟨1,7⟩)]).withInput []) := by
    intro t p
    refine (Pass.binding_openParen rfl hfirst .binding t p).trans ?_
    rw [Pass.names_eq,Pass.input_withInput,hcomma]
    dsimp only
    rw [Pass.names_eq,Pass.input_withInput,hend]
    rfl
  rw [tagSource_eq_tagTokens,tokens_commaSample,tagTokens]
  have hpass := Pass.declarations_endOfInput (t := ⟨.keyword,some .kwLet,[108,101,116],⟨1,0⟩⟩) rfl
    (hbinding _ (Pass.start .standard #[] []))
  exact congrArg (fun r => (r.2.tags,r.2.count)) hpass

end SourceTags
