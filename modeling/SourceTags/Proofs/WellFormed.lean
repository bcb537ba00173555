import SourceTags.Proofs.Tail
import SourceTags.Proofs.TileRow

/-! # Well-formed files

The grammar of declarations over tokens, each with the names it declares, and files made of declarations
with a terminator after each and of any tokens that introduce none. A pass over such a file reports the
declared names in order and nothing else.
-/
namespace SourceTags
open TokenStream

/-- An identifier, which `mut` may precede. -/
inductive NameTokens : List Token → Token → Prop
  | plain {name} : name.kind = .identifier → NameTokens [name] name
  | mutable {m name} : m.hasKeyword .kwMut → name.kind = .identifier → NameTokens [m,name] name

/-- Any token in the place of a name, with the one `mut` that is stepped over before it. -/
inductive NamePlace : List Token → Token → Prop
  | plain {name} : ¬name.hasKeyword .kwMut → NamePlace [name] name
  | mutable {m name} : m.hasKeyword .kwMut → NamePlace [m,name] name

/-- One or more places of names with commas between them. -/
inductive NamePlaces : List Token → List Token → Prop
  | one {w name} : NamePlace w name → NamePlaces w [name]
  | cons {w name comma w' names} : NamePlace w name → comma.kind = .comma → NamePlaces w' names →
      NamePlaces (w ++ comma :: w') (name :: names)

/-- One or more names with commas between them. -/
inductive NameList : List Token → List Token → Prop
  | one {w name} : NameTokens w name → NameList w [name]
  | cons {w name comma w' names} : NameTokens w name → comma.kind = .comma → NameList w' names →
      NameList (w ++ comma :: w') (name :: names)

/-- Names and what follows them. In a group a closing bracket after the names would end the group. -/
inductive Spec (grouped : Bool) : List Token → List Token → Prop
  | intro {w names tail} : NameList w names → Tail tail →
      (∀ t ∈ tail.head?, t.kind ≠ .comma ∧ (grouped → t.kind ≠ .closeParen)) →
      Spec grouped (w ++ tail) names

/-- One or more declarations of a group, a terminator after each. -/
inductive Specs : List Token → List Token → Prop
  | one {w names e} : Spec true w names → e.kind = .terminator → Specs (w ++ [e]) names
  | cons {w names e w' names'} : Spec true w names → e.kind = .terminator → Specs w' names' →
      Specs (w ++ e :: w') (names ++ names')

/-- What follows `type` or `let`, with the names that it declares. -/
inductive BindingTokens : List Token → List Token → Prop
  | spec {w names} : Spec false w names → BindingTokens w names
  | tuple {o w names c tail} : o.kind = .openParen → NameList w names → c.kind = .closeParen →
      Pieces (c :: tail) → BindingTokens (o :: (w ++ c :: tail)) names
  | group {o w names c} : o.kind = .openParen → Specs w names → c.kind = .closeParen →
      BindingTokens (o :: (w ++ [c])) names

/-- Parameters, the type of the result and the body of a function; the last two may be missing. -/
inductive SignatureTokens (body : List Token) : List Token → Prop
  | untyped {params} : Group .openParen params → SignatureTokens body (params ++ body)
  | typed {params w e} : Group .openParen params → IsType w e → SignatureTokens body (params ++ (w ++ body))

/-- What follows `fn`: a receiver, which may be missing, the name and what follows that. -/
inductive FunctionTokens (body : List Token) : List Token → Token → Prop
  | plain {name w} : name.kind = .identifier → SignatureTokens body w → FunctionTokens body (name :: w) name
  | method {g name w} : Group .openParen g → name.kind = .identifier → SignatureTokens body w →
      FunctionTokens body (g ++ name :: w) name

inductive DeclarationTokens : List Token → List (DeclarationKind × Token) → Prop
  | function {kw w body name} : kw.keyword = some .kwFn → body = [] ∨ Group .openCurly body →
      FunctionTokens body w name → DeclarationTokens (kw :: w) [(.function,name)]
  | typeAlias {kw w names} : kw.keyword = some .kwType → BindingTokens w names →
      DeclarationTokens (kw :: w) (names.map (Prod.mk .typeAlias))
  | binding {kw w names} : kw.keyword = some .kwLet → BindingTokens w names →
      DeclarationTokens (kw :: w) (names.map (Prod.mk .binding))

def Token.Introduces (t : Token) : Prop :=
  t.keyword = some .kwFn ∨ t.keyword = some .kwType ∨ t.keyword = some .kwLet

theorem Token.not_introduces {t : Token} (h : t.keyword = none) : ¬t.Introduces := by
  rintro (hk | hk | hk) <;> simp [h] at hk

inductive WellFormed : List Token → List (DeclarationKind × Token) → Prop
  | nil : WellFormed [] []
  | filler {t w names} : ¬t.Introduces → WellFormed w names → WellFormed (t :: w) names
  | declaration {d found e w names} : DeclarationTokens d found → e.kind = .terminator →
      WellFormed w names → WellFormed (d ++ e :: w) (found ++ names)

section Skipping

variable {t e : Token} {w rest : List Token}

theorem readBindingName_place {name : Token} (h : NamePlace w name) :
    readBindingName (w ++ rest) = .token name rest := by
  cases h with
  | plain hm => exact if_neg hm
  | mutable hm => exact if_pos hm

theorem namePlace_of_readBindingName {name : Token} {s : List Token} (h : readBindingName s = .token name rest) :
    ∃ v, s = v ++ rest ∧ NamePlace v name := by
  obtain ⟨t,s',ha,hr⟩ := Reading.andThen_eq_token.mp h
  obtain rfl := eq_cons_of_advance ha
  split at hr
  · next hm =>
    obtain rfl := eq_cons_of_advance hr
    exact ⟨[t,name],rfl,.mutable hm⟩
  · next hm =>
    obtain ⟨rfl,rfl⟩ := Reading.token.inj hr
    exact ⟨[t],rfl,.plain hm⟩

theorem NameTokens.identifier {name : Token} (h : NameTokens w name) : name.kind = .identifier := by
  cases h with
  | plain hn => exact hn
  | mutable _ hn => exact hn

theorem NameTokens.place {name : Token} (h : NameTokens w name) : NamePlace w name := by
  cases h with
  | plain hn => exact .plain (by simp [Token.hasKeyword,hn])
  | mutable hm _ => exact .mutable hm

theorem NameList.places {names : List Token} (h : NameList w names) :
    NamePlaces w names ∧ ∀ t ∈ names, t.kind = .identifier := by
  induction h with
  | one hn => exact ⟨.one hn.place,by simp [hn.identifier]⟩
  | cons hn hc _ ih => exact ⟨.cons hn.place hc ih.1,by simpa [hn.identifier] using ih.2⟩

theorem readBindingName_bracket (ht : t.kind = .openParen ∨ t.kind = .closeParen) :
    readBindingName (t :: rest) = .token t rest := by
  have hm : ¬t.hasKeyword .kwMut := by rcases ht with ht | ht <;> simp [Token.hasKeyword,ht]
  exact if_neg hm

theorem afterName_tail {grouped : Bool} (hw : Tail w)
    (hh : ∀ t ∈ w.head?, t.kind ≠ .comma ∧ (grouped → t.kind ≠ .closeParen)) (he : e.kind = .terminator) :
    afterName grouped (w ++ e :: rest) = if grouped then afterTerminator e rest else .done e rest := by
  have hs := advance_skipTail hw he rest
  obtain ⟨u,v,hr,hu⟩ : ∃ u v, advance (w ++ e :: rest) = .token u v ∧
      u.kind ≠ .comma ∧ (grouped → u.kind ≠ .closeParen) := by
    cases w with
    | nil => exact ⟨e,rest,rfl,by simp [he],by simp [he]⟩
    | cons u w => exact ⟨u,_,rfl,hh u rfl⟩
  rw [hr,Reading.andThen_token] at hs
  unfold afterName
  rw [hr]
  dsimp only
  rw [if_neg hu.1,hs]
  cases grouped with
  | false => rfl
  | true =>
    have hc := hu.2 rfl
    simp [hc]

/-- A bracket right after the names closes a tuple, and the terminator after its tail ends it. -/
theorem afterName_tuple {c : Token} (hc : c.kind = .closeParen) (hw : Pieces (c :: w)) (he : e.kind = .terminator) :
    afterName true (c :: (w ++ e :: rest)) = .done e rest := by
  have hs := advance_seekTerminator hw he rest
  rw [List.cons_append,advance_cons,Reading.andThen_token] at hs
  have hm : TypeForm.ofToken c = .missing := by simp [TypeForm.ofToken,hc]
  unfold afterName
  rw [advance_cons]
  dsimp only
  rw [if_neg (by simp [hc]),skipTypeExpr_missing hm,Reading.andThen_token,hs]
  simp [hc]

theorem skipSignature_signature {body : List Token} (hw : SignatureTokens body w)
    (hb : Group .openCurly body ∨ body = [] ∧ t.kind = .terminator) :
    skipSignature (w ++ t :: rest) = .token t rest := by
  obtain ⟨u,v,hv,hu,hs⟩ : ∃ u v, body ++ t :: rest = u :: v ∧
      (u.kind = .terminator ∨ u.kind = .openCurly) ∧ skipBody u v = .token t rest := by
    rcases hb with hb | ⟨rfl,ht⟩
    · cases hb with
      | @intro _ o b c hcloser ho hbal hc =>
        refine ⟨o,(b ++ [c]) ++ t :: rest,List.cons_append ..,.inr ho,?_⟩
        rw [skipBody,if_pos ho,skipGroup_group (.intro hcloser ho hbal hc),advance_cons]
    · exact ⟨t,rest,rfl,.inl ht,if_neg (by simp [ht])⟩
  have hadmits : ∀ e : TypeEnd, e.Admits u := by
    intro e
    cases e <;> rcases hu with hu | hu <;> simp [TypeEnd.Admits,TypeForm.ofToken,hu]
  unfold skipSignature
  cases hw with
  | untyped hp =>
    rw [List.append_assoc,readGroup_group hp,hv,advance_cons,Reading.andThen_token,
      skipTypeExpr_missing (hadmits .signature),Reading.andThen_token,hs]
  | typed hp hty =>
    rw [List.append_assoc,readGroup_group hp,List.append_assoc,hv,
      advance_skipTypeExpr hty (hadmits _),Reading.andThen_token,hs]

theorem readFunctionName_function {body : List Token} {name : Token} (hw : FunctionTokens body w name)
    (rest : List Token) :
    ∃ s, SignatureTokens body s ∧ name.kind = .identifier ∧
      readFunctionName (w ++ rest) = .token name (s ++ rest) := by
  cases hw with
  | @plain _ s hn hs => exact ⟨s,hs,hn,if_neg (by simp [hn])⟩
  | @method g _ s hg hn hs =>
    refine ⟨s,hs,hn,?_⟩
    cases hg with
    | @intro _ o w c hcloser ho hw hc =>
      have hskip : skipGroup o (w ++ [c] ++ name :: (s ++ rest)) = .token name (s ++ rest) :=
        skipGroup_group (.intro hcloser ho hw hc)
      unfold readFunctionName
      rw [List.append_assoc,List.cons_append,List.cons_append,advance_cons,Reading.andThen_token,if_pos ho,hskip]

end Skipping

namespace Pass

variable {τ : Type}

def reportAll (p : Pass τ) (found : List (DeclarationKind × Token)) : Pass τ :=
  found.foldl (fun p d => p.report d.1 d.2) p

@[simp] theorem reportAll_nil (p : Pass τ) : p.reportAll [] = p := rfl

@[simp] theorem reportAll_cons (p : Pass τ) (d : DeclarationKind × Token) (found : List (DeclarationKind × Token)) :
    p.reportAll (d :: found) = (p.report d.1 d.2).reportAll found := rfl

theorem reportAll_append (p : Pass τ) (found more : List (DeclarationKind × Token)) :
    p.reportAll (found ++ more) = (p.reportAll found).reportAll more := List.foldl_append ..

theorem reportAll_unqualified {p : Pass τ} (hkinds : p.settings.kinds = .all) (hqualifier : p.settings.qualifier = none)
    (found : List (DeclarationKind × Token)) :
    (p.reportAll found).tags = p.tags ++ found.map (fun d => Tag.ofToken d.1 d.2) ∧
      (p.reportAll found).count = p.count + found.length := by
  induction found generalizing p with
  | nil => simp
  | cons d found ih =>
    obtain ⟨ht,hc⟩ := ih (p := p.report d.1 d.2) hkinds hqualifier
    have hone : p.settings.tagsFor d.1 d.2 = [Tag.ofToken d.1 d.2] := by
      simp [TagSettings.tagsFor,hkinds,hqualifier]
    rw [reportAll_cons,ht,hc]
    simp only [report,hone,List.map_cons,List.length_cons,List.length_nil]
    constructor
    · apply Array.ext'
      simp
    · omega

theorem reportAll_standard {p : Pass τ} (hp : p.settings = .standard) (found : List (DeclarationKind × Token)) :
    (p.reportAll found).tags = p.tags ++ found.map (fun d => Tag.ofToken d.1 d.2) ∧
      (p.reportAll found).count = p.count + found.length :=
  reportAll_unqualified (by rw [hp]; rfl) (by rw [hp]; rfl) found

variable {w names : List Token}

theorem names_namePlaces (hw : NamePlaces w names) (kind : DeclarationKind) (grouped : Bool) (rest : List Token)
    (p : Pass (List Token)) :
    ∃ first s init last, readBindingName (w ++ rest) = .token first s ∧ first ∈ names.head? ∧
      names = init ++ [last] ∧
      (p.withInput s).names kind grouped first =
        ((p.reportAll (init.map (Prod.mk kind))).withInput rest).names kind grouped last := by
  induction hw generalizing p with
  | @one _ name hn => exact ⟨name,rest,[],name,readBindingName_place hn,rfl,rfl,rfl⟩
  | @cons w name comma w' names hn hc _ ih =>
    obtain ⟨first,s,init,last,hr,-,hsplit,hnames⟩ := ih (p.report kind name)
    refine ⟨name,comma :: (w' ++ rest),name :: init,last,?_,rfl,congrArg _ hsplit,?_⟩
    · rw [List.append_assoc]
      exact readBindingName_place hn
    · have ha : afterName grouped (comma :: (w' ++ rest)) = .name first s := by
        unfold afterName
        rw [advance_cons]
        dsimp only
        rw [if_pos hc,afterComma,hr]
      rw [names_eq,input_withInput,ha]
      exact hnames

theorem names_nameList (hw : NameList w names) (kind : DeclarationKind) (grouped : Bool) (rest : List Token)
    (p : Pass (List Token)) :
    ∃ first s init last, readBindingName (w ++ rest) = .token first s ∧ first.kind = .identifier ∧
      names = init ++ [last] ∧
      (p.withInput s).names kind grouped first =
        ((p.reportAll (init.map (Prod.mk kind))).withInput rest).names kind grouped last := by
  obtain ⟨hplaces,hidentifier⟩ := hw.places
  obtain ⟨first,s,init,last,hr,hfirst,hsplit,hnames⟩ := names_namePlaces hplaces kind grouped rest p
  exact ⟨first,s,init,last,hr,hidentifier first (List.mem_of_mem_head? hfirst),hsplit,hnames⟩

theorem names_spec {grouped : Bool} {e : Token} (hw : Spec grouped w names) (he : e.kind = .terminator)
    (kind : DeclarationKind) (rest : List Token) (p : Pass (List Token)) :
    ∃ first s, readBindingName (w ++ e :: rest) = .token first s ∧ first.kind = .identifier ∧
      (p.withInput s).names kind grouped first =
        match if grouped then afterTerminator e rest else .done e rest with
        | .endOfInput left s => .endOfInput left ((p.reportAll (names.map (Prod.mk kind))).withInput s)
        | .done t s => .token t ((p.reportAll (names.map (Prod.mk kind))).withInput s)
        | .name t s => ((p.reportAll (names.map (Prod.mk kind))).withInput s).names kind grouped t := by
  cases hw with
  | @intro w _ tail hl ht hh =>
    obtain ⟨first,s,init,last,hr,hfirst,rfl,hnames⟩ := names_nameList hl kind grouped (tail ++ e :: rest) p
    refine ⟨first,s,by rw [List.append_assoc,hr],hfirst,?_⟩
    rw [hnames,names_eq,input_withInput,afterName_tail ht hh he,List.map_append,reportAll_append]
    generalize (if grouped = true then afterTerminator e rest else AfterName.done e rest) = after
    cases after <;> rfl

theorem names_specs {c : Token} (hw : Specs w names) (hc : c.kind = .closeParen) (kind : DeclarationKind)
    (rest : List Token) (p : Pass (List Token)) :
    ∃ first s e, readBindingName (w ++ c :: rest) = .token first s ∧ first.kind = .identifier ∧
      (p.withInput s).names kind true first =
        .token e ((p.reportAll (names.map (Prod.mk kind))).withInput rest) := by
  induction hw generalizing p with
  | @one w names e hspec he =>
    obtain ⟨first,s,hr,hfirst,hnames⟩ := names_spec hspec he kind (c :: rest) p
    refine ⟨first,s,e,by rw [List.append_assoc,List.singleton_append,hr],hfirst,?_⟩
    rw [hnames,if_pos rfl,afterTerminator,readBindingName_bracket (.inr hc)]
    dsimp only
    rw [if_pos hc]
  | @cons w names e w' names' hspec he _ ih =>
    obtain ⟨next,s',e',hr',hnext,hnames'⟩ := ih (p.reportAll (names.map (Prod.mk kind)))
    obtain ⟨first,s,hr,hfirst,hnames⟩ := names_spec hspec he kind (w' ++ c :: rest) p
    refine ⟨first,s,e',by rw [List.append_assoc,List.cons_append,hr],hfirst,?_⟩
    rw [hnames,if_pos rfl,afterTerminator,hr']
    dsimp only
    rw [if_neg (by simp [hnext])]
    dsimp only
    rw [hnames',List.map_append,reportAll_append]

theorem binding_openParen {o name : Token} {s s' : List Token} (ho : o.kind = .openParen)
    (hr : readBindingName s = .token name s') (kind : DeclarationKind) (t : Token) (p : Pass (List Token)) :
    (p.withInput (o :: s)).binding kind t = (p.withInput s').names kind true name := by
  unfold binding
  rw [input_withInput,readBindingName_bracket (.inl ho)]
  dsimp only
  rw [if_pos ho,hr]
  rfl

/-- What is left after a declaration is what follows its terminator, or the terminator too. -/
theorem binding_tokens {e : Token} (hw : BindingTokens w names) (he : e.kind = .terminator)
    (kind : DeclarationKind) (t : Token) (rest : List Token) (p : Pass (List Token)) :
    ∃ u s, (p.withInput (w ++ e :: rest)).binding kind t =
        .token u ((p.reportAll (names.map (Prod.mk kind))).withInput s) ∧ (s = rest ∨ s = e :: rest) := by
  cases hw with
  | spec hspec =>
    obtain ⟨first,s,hr,hfirst,hnames⟩ := names_spec hspec he kind rest p
    refine ⟨e,rest,?_,.inl rfl⟩
    unfold binding
    rw [input_withInput,hr]
    dsimp only
    rw [if_neg (by simp [hfirst])]
    exact hnames
  | @tuple o w _ c tail ho hl hc htail =>
    obtain ⟨first,s,init,last,hr,-,rfl,hnames⟩ := names_nameList hl kind true (c :: (tail ++ e :: rest)) p
    refine ⟨e,rest,?_,.inl rfl⟩
    rw [List.cons_append,List.append_assoc,List.cons_append,binding_openParen ho hr,hnames,names_eq,input_withInput,
      afterName_tuple hc htail he,List.map_append,reportAll_append]
    rfl
  | @group o w _ c ho hspecs hc =>
    obtain ⟨first,s,u,hr,-,hnames⟩ := names_specs hspecs hc kind (e :: rest) p
    refine ⟨u,e :: rest,?_,.inr rfl⟩
    rw [List.cons_append,List.append_assoc,List.singleton_append,binding_openParen ho hr,hnames]

theorem function_tokens {body : List Token} {name u : Token} (hw : FunctionTokens body w name)
    (hb : Group .openCurly body ∨ body = [] ∧ u.kind = .terminator) (t : Token) (rest : List Token)
    (p : Pass (List Token)) :
    (p.withInput (w ++ u :: rest)).function t = .token u ((p.report .function name).withInput rest) := by
  obtain ⟨s,hs,hn,hr⟩ := readFunctionName_function hw (u :: rest)
  unfold function
  rw [input_withInput,hr]
  dsimp only
  rw [if_pos hn,skipSignature_signature hs hb]
  rfl

theorem declaration_tokens {d : List Token} {found : List (DeclarationKind × Token)} {e : Token}
    (hd : DeclarationTokens d found) (he : e.kind = .terminator) (rest : List Token) (p : Pass (List Token)) :
    ∃ kw w u s, d = kw :: w ∧ (p.withInput (w ++ e :: rest)).declaration kw =
        .token u ((p.reportAll found).withInput s) ∧ (s = rest ∨ s = e :: rest) := by
  cases hd with
  | @function kw w body name hk hb hw =>
    have hb' : Group .openCurly body ∨ body = [] ∧ e.kind = .terminator := hb.symm.imp_right (⟨·,he⟩)
    refine ⟨kw,w,e,rest,rfl,?_,.inl rfl⟩
    unfold declaration
    rw [hk]
    exact function_tokens hw hb' kw rest p
  | @typeAlias kw w names hk hw =>
    obtain ⟨u,s,hr,hs⟩ := binding_tokens hw he .typeAlias kw rest p
    refine ⟨kw,w,u,s,rfl,?_,hs⟩
    unfold declaration
    rw [hk]
    exact hr
  | @binding kw w names hk hw =>
    obtain ⟨u,s,hr,hs⟩ := binding_tokens hw he .binding kw rest p
    refine ⟨kw,w,u,s,rfl,?_,hs⟩
    unfold declaration
    rw [hk]
    exact hr

theorem declaration_filler {t : Token} (ht : ¬t.Introduces) (p : Pass (List Token)) :
    p.declaration t = .token t p := by
  unfold declaration
  split
  · next h => exact absurd (.inl h) ht
  · next h => exact absurd (.inr (.inl h)) ht
  · next h => exact absurd (.inr (.inr h)) ht
  · rfl

theorem declarations_filler {t : Token} (ht : ¬t.Introduces) (rest : List Token) (p : Pass (List Token)) :
    (p.withInput (t :: rest)).declarations = (p.withInput rest).declarations := by
  rw [declarations_eq,input_withInput,advance_cons]
  dsimp only
  rw [declaration_filler ht]
  rfl

/-- A declaration is reported and passed with the terminator after it. -/
theorem declarations_declaration {d : List Token} {found : List (DeclarationKind × Token)} {e : Token}
    (hd : DeclarationTokens d found) (he : e.kind = .terminator) (hk : e.keyword = none) (rest : List Token)
    (p : Pass (List Token)) :
    (p.withInput (d ++ e :: rest)).declarations = ((p.reportAll found).withInput rest).declarations := by
  obtain ⟨kw,w,u,s,rfl,hr,hs⟩ := declaration_tokens hd he rest p
  rw [declarations_eq,input_withInput,List.cons_append,advance_cons]
  dsimp only
  rw [withInput_withInput,hr]
  dsimp only
  rcases hs with rfl | rfl
  · rfl
  · exact declarations_filler (Token.not_introduces hk) rest _

theorem declarations_wellFormed {w : List Token} {found : List (DeclarationKind × Token)}
    (hw : WellFormed w found) (hs : Scanned w) (p : Pass (List Token)) :
    (p.withInput w).declarations.2 = (p.reportAll found).withInput [] := by
  induction hw generalizing p with
  | nil =>
    rw [declarations_eq,input_withInput,advance_nil]
    rfl
  | filler ht _ ih => rw [declarations_filler ht,ih hs.of_cons]
  | @declaration d _ e w _ hd he _ ih =>
    have hrest : Scanned (e :: w) := hs.of_append
    have hk : e.keyword = none := hrest e (List.mem_cons_self ..) (by simp [he])
    rw [declarations_declaration hd he hk,ih hrest.of_cons,reportAll_append]

end Pass

theorem tagTokens_reportAll {w : List Token} {found : List (DeclarationKind × Token)} (hw : WellFormed w found)
    (hs : Scanned w) (settings : TagSettings) (tags : Array Tag) :
    tagTokens settings tags w = (((Pass.start settings tags w).reportAll found).tags,
      ((Pass.start settings tags w).reportAll found).count) := by
  let p := Pass.start settings tags w
  have hd : p.declarations.2 = (p.reportAll found).withInput [] := Pass.declarations_wellFormed hw hs p
  have htags := congrArg Pass.tags hd
  have hcount := congrArg Pass.count hd
  exact Prod.ext htags hcount

theorem tagTokens_wellFormed {w : List Token} {found : List (DeclarationKind × Token)} (hw : WellFormed w found)
    (hs : Scanned w) (tags : Array Tag) :
    tagTokens .standard tags w = (tags ++ found.map (fun d => Tag.ofToken d.1 d.2),found.length) := by
  obtain ⟨ht,hc⟩ := Pass.reportAll_standard (p := Pass.start .standard tags w) rfl found
  rw [tagTokens_reportAll hw hs]
  exact Prod.ext ht (hc.trans (Nat.zero_add _))

/-- A well-formed file has one tag for each declared name, in order, and no other. -/
theorem tagSource_wellFormed {lexicon : Lexicon} {f : SourceFile} {found : List (DeclarationKind × Token)}
    (hf : WellFormed (f.tokens lexicon) found) (tags : Array Tag) :
    tagSource .standard lexicon tags f.reader =
      (tags ++ found.map (fun d => Tag.ofToken d.1 d.2),found.length) := by
  rw [tagSource_eq_tagTokens,tagTokens_wellFormed hf (f.scanned_tokens lexicon)]

def sampleFile : SourceFile := ⟨Utf8.encode "fn a() \x7b\x7d\nlet b, c int\n"⟩

def sampleTiles : List Tile :=
  [.word 102 [110],.blank Byte.space,.word 97 [],.punctuation Byte.openParen .openParen,
    .punctuation Byte.closeParen .closeParen,.blank Byte.space,.punctuation Byte.openCurly .openCurly,
    .punctuation Byte.closeCurly .closeCurly,.blank Byte.newline,.word 108 [101,116],.blank Byte.space,.word 98 [],
    .punctuation Byte.comma .comma,.blank Byte.space,.word 99 [],.blank Byte.space,.word 105 [110,116]] ++
      [.blank Byte.newline]

theorem tiled_sampleTiles : Tile.Tiled sampleTiles ∧ Tile.spell sampleTiles = sampleFile.content := by
  decide +kernel

def sampleFunction : List Token :=
  [⟨.keyword,some .kwFn,[102,110],⟨1,0⟩⟩,⟨.identifier,none,[97],⟨1,3⟩⟩,.bare .openParen ⟨1,4⟩,
    .bare .closeParen ⟨1,5⟩,.bare .openCurly ⟨1,7⟩,.bare .closeCurly ⟨1,8⟩]

def sampleBinding : List Token :=
  [⟨.keyword,some .kwLet,[108,101,116],⟨2,10⟩⟩,⟨.identifier,none,[98],⟨2,14⟩⟩,.bare .comma ⟨2,15⟩,
    ⟨.identifier,none,[99],⟨2,17⟩⟩,⟨.identifier,none,[105,110,116],⟨2,19⟩⟩]

theorem tokens_sampleFile :
    sampleFile.tokens .standard =
      sampleFunction ++ .bare .terminator ⟨1,9⟩ :: (sampleBinding ++ [.bare .terminator ⟨2,22⟩]) := by
  rw [SourceFile.tokens_tiles tiled_sampleTiles.1 tiled_sampleTiles.2]
  decide

def sampleNames : List (DeclarationKind × Token) :=
  [(.function,⟨.identifier,none,[97],⟨1,3⟩⟩),(.binding,⟨.identifier,none,[98],⟨2,14⟩⟩),
    (.binding,⟨.identifier,none,[99],⟨2,17⟩⟩)]

theorem wellFormed_sampleFile : WellFormed (sampleFile.tokens .standard) sampleNames := by
  have hparams : Group .openParen [.bare .openParen ⟨1,4⟩,.bare .closeParen ⟨1,5⟩] :=
    .intro (w := []) rfl rfl .nil rfl
  have hbody : Group .openCurly [.bare .openCurly ⟨1,7⟩,.bare .closeCurly ⟨1,8⟩] :=
    .intro (w := []) rfl rfl .nil rfl
  have hfunction : DeclarationTokens sampleFunction [(.function,⟨.identifier,none,[97],⟨1,3⟩⟩)] :=
    .function rfl (.inr hbody) (.plain rfl (.untyped hparams))
  have hnames : NameList [⟨.identifier,none,[98],⟨2,14⟩⟩,.bare .comma ⟨2,15⟩,⟨.identifier,none,[99],⟨2,17⟩⟩]
      [⟨.identifier,none,[98],⟨2,14⟩⟩,⟨.identifier,none,[99],⟨2,17⟩⟩] :=
    .cons (w := [⟨.identifier,none,[98],⟨2,14⟩⟩]) (.plain rfl) rfl (.one (.plain rfl))
  have htail : Tail [⟨.identifier,none,[105,110,116],⟨2,19⟩⟩] := .name rfl (by simp) .nil
  have hbinding : DeclarationTokens sampleBinding
      [(.binding,⟨.identifier,none,[98],⟨2,14⟩⟩),(.binding,⟨.identifier,none,[99],⟨2,17⟩⟩)] :=
    .binding rfl (.spec (.intro hnames htail (by simp)))
  rw [tokens_sampleFile]
  exact .declaration hfunction rfl (.declaration hbinding rfl .nil)

theorem tagSource_sampleFile :
    WellFormed (sampleFile.tokens .standard) sampleNames ∧
    tagSource .standard .standard #[] sampleFile.reader =
      (#[⟨"a",.function,⟨1,3⟩⟩,⟨"b",.binding,⟨2,14⟩⟩,⟨"c",.binding,⟨2,17⟩⟩],3) :=
  ⟨wellFormed_sampleFile,tagSource_wellFormed wellFormed_sampleFile #[]⟩

end SourceTags
