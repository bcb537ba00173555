import Mathlib.Data.List.Chain
import SourceTags.Proofs.ReportedNames
import SourceTags.Proofs.Terminators

/-! # Names are reported in order

Every routine leaves a current token that stands before all that is left to read, so a name that is reported is
always a token passed since the last report: the names are a part of the tokens, in their order. A name is read
only after a token that ends no statement, where no terminator can follow; that of a function is an identifier.
So every tag stands at a token of its own, and the tags stand one after another.
-/
namespace SourceTags
open TokenStream

/-- The reading leaves a token of the list as the current one, and what follows it in the list. -/
def Reading.Within (s : List Token) : Reading (List Token) → Prop
  | token t rest => t :: rest <:+ s
  | endOfInput _ _ => True

namespace Reading

variable {r : Reading (List Token)} {s more : List Token} {f : Token → List Token → Reading (List Token)}

theorem Within.mono (h : r.Within s) (hs : s <:+ more) : r.Within more := by
  cases r with
  | token t rest => exact List.IsSuffix.trans h hs
  | endOfInput => trivial

theorem Within.suffix (h : r.Within s) {t : Token} {rest : List Token} (hr : r = token t rest) : t :: rest <:+ s := by
  rw [hr] at h
  exact h

theorem Within.andThen (h : r.Within s) (hf : ∀ t rest, r = token t rest → (f t rest).Within (t :: rest)) :
    (r.andThen f).Within s := by
  cases r with
  | token t rest => exact (hf t rest rfl).mono h
  | endOfInput => trivial

end Reading

section Within

variable {t : Token} {s rest : List Token}

theorem within_advance (s : List Token) : (advance s).Within s := by
  cases s with
  | nil => trivial
  | cons t s => exact List.suffix_rfl

theorem within_closeGroup (opening closing : TokenKind) (inner : Nat) (s : List Token) :
    (closeGroup opening closing inner s).Within s := by
  induction s generalizing inner with
  | nil =>
    rw [closeGroup_endOfInput advance_nil]
    trivial
  | cons t s ih =>
    have hs : s <:+ t :: s := List.suffix_cons t s
    rw [closeGroup_token (advance_cons ..)]
    split
    · exact (ih _).mono hs
    · split
      · cases inner with
        | zero => exact (within_advance s).mono hs
        | succ inner => exact (ih _).mono hs
      · exact (ih _).mono hs

theorem within_skipGroup (t : Token) (s : List Token) : (skipGroup t s).Within (t :: s) := by
  unfold skipGroup
  split
  · exact List.suffix_rfl
  · exact (within_closeGroup ..).mono (List.suffix_cons t s)

theorem within_readGroup (s : List Token) : (readGroup s).Within s :=
  (within_advance s).andThen fun t rest _ => within_skipGroup t rest

theorem within_seekTerminator (t : Token) (s : List Token) : (seekTerminator t s).Within (t :: s) := by
  by_cases ht : t.kind = .terminator
  · rw [seekTerminator_terminator ht]
    exact List.suffix_rfl
  · rw [seekTerminator_of_ne ht]
    refine ((within_readGroup s).mono (List.suffix_cons t s)).andThen ?_
    intro u rest hr
    have := remaining_readGroup hr
    exact within_seekTerminator u rest
termination_by remaining s

theorem within_skipTypeName (s : List Token) : (skipTypeName s).Within s := by
  refine (within_advance s).andThen ?_
  intro t rest _
  split
  · refine ((within_advance rest).mono (List.suffix_cons t rest)).andThen ?_
    intro u rest _
    exact (within_advance rest).mono (List.suffix_cons u rest)
  · exact List.suffix_rfl

theorem within_skipTypeStart (form : TypeForm) (t : Token) (s : List Token) :
    (skipTypeStart form t s).Within (t :: s) := by
  have hs : s <:+ t :: s := List.suffix_cons t s
  cases form with
  | missing => exact List.suffix_rfl
  | group | element => exact within_skipGroup t s
  | name => exact (within_skipTypeName s).mono hs
  | body | signature => exact (within_readGroup s).mono hs
  | sign => exact (within_advance s).mono hs

theorem within_skipTypeExpr (t : Token) (s : List Token) : (skipTypeExpr t s).Within (t :: s) := by
  rw [skipTypeExpr_eq]
  refine (within_skipTypeStart _ t s).andThen ?_
  intro u rest hr
  split
  · next hi =>
    have := remaining_skipTypeStart_lt hi hr
    exact within_skipTypeExpr u rest
  · exact List.suffix_rfl
termination_by remaining s

theorem within_skipSignature (s : List Token) : (skipSignature s).Within s := by
  refine ((within_readGroup s).andThen fun t rest _ => within_skipTypeExpr t rest).andThen ?_
  intro t rest _
  unfold skipBody
  split
  · exact within_skipGroup t rest
  · exact List.suffix_rfl

theorem within_readFunctionName (s : List Token) : (readFunctionName s).Within s := by
  refine (within_advance s).andThen ?_
  intro t rest _
  split
  · exact within_skipGroup t rest
  · exact List.suffix_rfl

theorem within_readBindingName (s : List Token) : (readBindingName s).Within s := by
  refine (within_advance s).andThen ?_
  intro t rest _
  split
  · exact (within_advance rest).mono (List.suffix_cons t rest)
  · exact List.suffix_rfl

theorem kind_of_seekTerminator {t e : Token} {s : List Token} (h : seekTerminator t s = .token e rest) :
    e.kind = .terminator := by
  fun_induction seekTerminator t s with
  | case1 _ _ ht =>
    obtain ⟨rfl,-⟩ := Reading.token.inj h
    exact ht
  | case2 _ _ _ _ _ _ ih => exact ih h
  | case3 => contradiction

end Within

/-- No terminator follows a token that cannot end a statement. -/
def Settled (ts : List Token) : Prop :=
  ts.IsChain fun a e => e.kind = .terminator → a.kind.mayEndStatement = true

namespace Settled

variable {a t : Token} {s rest : List Token}

theorem of_suffix (h : Settled s) (hs : rest <:+ s) : Settled rest := List.IsChain.suffix h hs

theorem kind_next (h : Settled (a :: t :: rest)) (ha : a.kind.mayEndStatement = false) : t.kind ≠ .terminator := by
  intro ht
  have hchain := (List.isChain_cons.mp h).1 t rfl ht
  rw [ha] at hchain
  contradiction

theorem kind_name {name : Token} (h : Settled (a :: s)) (ha : a.kind.mayEndStatement = false)
    (hr : readBindingName s = .token name rest) : name.kind ≠ .terminator := by
  obtain ⟨t,s',ht,hn⟩ := Reading.andThen_eq_token.mp hr
  obtain rfl := eq_cons_of_advance ht
  split at hn
  · next hm =>
    have hk : t.kind = .keyword := by
      simp only [Token.hasKeyword,Bool.and_eq_true,beq_iff_eq] at hm
      exact hm.1
    obtain rfl := eq_cons_of_advance hn
    apply (h.of_suffix (List.suffix_cons a _)).kind_next
    rw [hk]
    rfl
  · obtain ⟨rfl,rfl⟩ := Reading.token.inj hn
    exact h.kind_next ha

end Settled

theorem Tile.settled_tokens {lexicon : Lexicon} {ends : Bool} {p : Position} {tiles : List Tile} (ht : Tiled tiles) :
    Settled (tokens lexicon ends p tiles) := by
  induction tiles generalizing ends p with
  | nil => exact .nil
  | cons t tiles ih =>
    obtain ⟨-,htiles⟩ := ht
    have hcons : ∀ {a : Token} {q : Position}, Settled (a :: tokens lexicon a.kind.mayEndStatement q tiles) := by
      intro a q
      refine List.isChain_cons.mpr ⟨?_,ih htiles⟩
      intro e he hk
      by_contra hno
      exact kind_of_head?_tokens htiles (.inl (Bool.eq_false_iff.mpr hno)) he hk
    cases hu : t.token? lexicon p with
    | some u =>
      rw [tokens_token hu]
      exact hcons
    | none =>
      cases hb : ends && t.breaksLine with
      | false =>
        rw [tokens_trivia hu hb]
        exact ih htiles
      | true =>
        obtain ⟨rfl,hbreak⟩ := Bool.and_eq_true_iff.mp hb
        rw [tokens_break hu hbreak]
        exact hcons

theorem SourceFile.settled_tokens (lexicon : Lexicon) (f : SourceFile) : Settled (f.tokens lexicon) := by
  obtain ⟨tiles,ht,hf⟩ := exists_tiles f.endsLine_content
  rw [tokens_tiles ht hf]
  exact Tile.settled_tokens ht

theorem SourceFile.tokens_ordered (lexicon : Lexicon) (f : SourceFile) :
    (f.tokens lexicon).Pairwise fun t u => t.pos.offset < u.pos.offset ∧ t.pos.line ≤ u.pos.line := by
  obtain ⟨tiles,ht,hf⟩ := exists_tiles f.endsLine_content
  rw [tokens_tiles ht hf]
  exact Tile.tokens_ordered

def AfterName.Within (s : List Token) : AfterName (List Token) → Prop
  | name t rest => t :: rest <:+ s ∧ t.kind ≠ .terminator
  | done _ rest => rest <:+ s
  | endOfInput _ _ => True

section AfterName

variable {t : Token} {s rest : List Token}

theorem within_afterComma (h : Settled (t :: s)) (ht : t.kind = .comma) : (afterComma t s).Within s := by
  unfold afterComma
  split
  · trivial
  · next hn => exact ⟨(within_readBindingName _).suffix hn,h.kind_name (by rw [ht]; rfl) hn⟩

theorem within_afterTerminator (h : Settled (t :: s)) (ht : t.kind = .terminator) : (afterTerminator t s).Within s := by
  unfold afterTerminator
  split
  · trivial
  · next hn =>
    have hs := (within_readBindingName _).suffix hn
    split
    · exact (List.suffix_cons _ _).trans hs
    · exact ⟨hs,h.kind_name (by rw [ht]; rfl) hn⟩

theorem AfterName.Within.mono {a : AfterName (List Token)} {more : List Token} (h : a.Within s) (hs : s <:+ more) :
    a.Within more := by
  cases a with
  | name t rest => exact ⟨h.1.trans hs,h.2⟩
  | done t rest => exact List.IsSuffix.trans h hs
  | endOfInput => trivial

theorem within_afterName (grouped : Bool) (h : Settled s) : (afterName grouped s).Within s := by
  unfold afterName
  cases s with
  | nil => trivial
  | cons t s =>
    rw [advance_cons]
    dsimp only
    split
    · next ht => exact (within_afterComma h ht).mono (List.suffix_cons t s)
    · split
      · trivial
      · next last rest hr =>
        have hall := (within_skipTypeExpr t s).andThen fun u rest _ => within_seekTerminator u rest
        have hw : last :: rest <:+ t :: s := hall.suffix hr
        have hrest : rest <:+ t :: s := (List.suffix_cons last rest).trans hw
        obtain ⟨_,_,_,hseek⟩ := Reading.andThen_eq_token.mp hr
        split
        · exact (within_afterTerminator (h.of_suffix hw) (kind_of_seekTerminator hseek)).mono hrest
        · exact hrest

end AfterName

/-- A token that can be reported as a name of the kind. -/
def Nameable (kind : DeclarationKind) (t : Token) : Prop :=
  t.kind ≠ .terminator ∧ (kind = .function → t.kind = .identifier)

variable {settings : TagSettings} {given : Array Tag} {ts : List Token}

/-- The pass has reported names of wanted kinds that come in order among the tokens, and all before those ahead. -/
def Pass.InOrder (settings : TagSettings) (given : Array Tag) (ts ahead : List Token) (p : Pass (List Token)) : Prop :=
  ∃ names, p.Reported settings given names ∧ (names.map Prod.snd ++ ahead).Sublist ts ∧
    ∀ x ∈ names, settings.kinds.contains x.1 = true ∧ Nameable x.1 x.2

namespace Pass.InOrder

variable {p : Pass (List Token)} {ahead less : List Token}

theorem start (settings : TagSettings) (given : Array Tag) (ts : List Token) :
    (Pass.start settings given ts).InOrder settings given ts ts := ⟨[],.start ..,List.Sublist.refl ts,by simp⟩

theorem withInput (h : p.InOrder settings given ts ahead) (s : List Token) :
    (p.withInput s).InOrder settings given ts ahead := by
  obtain ⟨names,hp,hsub,hnames⟩ := h
  exact ⟨names,hp.withInput s,hsub,hnames⟩

theorem mono (h : p.InOrder settings given ts ahead) (hs : less.Sublist ahead) : p.InOrder settings given ts less := by
  obtain ⟨names,hp,hsub,hnames⟩ := h
  exact ⟨names,hp,(hs.append_left _).trans hsub,hnames⟩

theorem report {kind : DeclarationKind} {name : Token} (h : p.InOrder settings given ts (name :: ahead))
    (hn : Nameable kind name) : (p.report kind name).InOrder settings given ts ahead := by
  obtain ⟨names,hp,hsub,hnames⟩ := h
  refine ⟨names ++ settings.wanted kind name,hp.report kind name,?_,?_⟩
  · refine List.Sublist.trans ?_ hsub
    rw [List.map_append,List.append_assoc]
    apply List.Sublist.append_left
    unfold TagSettings.wanted
    split
    · exact List.Sublist.refl _
    · exact List.sublist_cons_self name ahead
  · intro x hx
    rcases List.mem_append.mp hx with hx | hx
    · exact hnames x hx
    · obtain ⟨rfl,hk⟩ := settings.mem_wanted hx
      exact ⟨hk,hn⟩

end Pass.InOrder

def Pass.StaysInOrder (settings : TagSettings) (given : Array Tag) (ts s : List Token) :
    Reading (Pass (List Token)) → Prop
  | .token _ q => q.InOrder settings given ts q.input ∧ q.input <:+ s
  | .endOfInput _ q => q.InOrder settings given ts []

theorem Pass.StaysInOrder.mono {s more : List Token} {r : Reading (Pass (List Token))}
    (h : StaysInOrder settings given ts s r) (hs : s <:+ more) : StaysInOrder settings given ts more r := by
  cases r with
  | token _ q => exact ⟨h.1,h.2.trans hs⟩
  | endOfInput => exact h

namespace Pass

variable {p : Pass (List Token)} {kind : DeclarationKind}

theorem inOrder_names (hk : kind ≠ .function) {grouped : Bool} {name : Token} {p : Pass (List Token)}
    (h : p.InOrder settings given ts (name :: p.input)) (hn : name.kind ≠ .terminator) (hs : Settled p.input) :
    StaysInOrder settings given ts p.input (p.names kind grouped name) := by
  have hreport := h.report ⟨hn,fun hf => absurd hf hk⟩
  have hafter := within_afterName grouped hs
  rw [names_eq]
  cases ha : afterName grouped p.input with
  | endOfInput left rest => exact (hreport.mono (List.nil_sublist _)).withInput rest
  | done t rest =>
    rw [ha] at hafter
    exact ⟨(hreport.mono hafter.sublist).withInput rest,hafter⟩
  | name next rest =>
    rw [ha] at hafter
    obtain ⟨hnext,hnotEnd⟩ := hafter
    have := remaining_afterName (.inl ha)
    have hrest : rest <:+ p.input := (List.suffix_cons next rest).trans hnext
    have hlater : StaysInOrder settings given ts rest (((p.report kind name).withInput rest).names kind grouped next) :=
      inOrder_names hk ((hreport.mono hnext.sublist).withInput rest) hnotEnd (hs.of_suffix hrest)
    exact hlater.mono hrest
termination_by remaining p.input

/-- The keyword of a declaration ends no statement, so a name follows it and no terminator. -/
theorem inOrder_binding (hk : kind ≠ .function) {t : Token} (ht : t.kind.mayEndStatement = false)
    (h : p.InOrder settings given ts p.input) (hs : Settled (t :: p.input)) :
    StaysInOrder settings given ts p.input (p.binding kind t) := by
  unfold binding
  split
  · next rest _ => exact (h.mono (List.nil_sublist _)).withInput rest
  · next first rest hf =>
    have hfirst := (within_readBindingName _).suffix hf
    have hrest : rest <:+ p.input := (List.suffix_cons first rest).trans hfirst
    have hinput := hs.of_suffix (List.suffix_cons t p.input)
    split
    · next ho =>
      split
      · next rest' _ => exact (h.mono (List.nil_sublist _)).withInput rest'
      · next name rest' hn =>
        have hname := ((within_readBindingName _).suffix hn).trans hrest
        have hnotEnd := (hinput.of_suffix hfirst).kind_name (by rw [ho]; rfl) hn
        have hrest' : rest' <:+ p.input := (List.suffix_cons name rest').trans hname
        have hnames : StaysInOrder settings given ts rest' ((p.withInput rest').names kind true name) :=
          inOrder_names hk ((h.mono hname.sublist).withInput rest') hnotEnd (hinput.of_suffix hrest')
        exact hnames.mono hrest'
    · have hnames : StaysInOrder settings given ts rest ((p.withInput rest).names kind false first) :=
        inOrder_names hk ((h.mono hfirst.sublist).withInput rest) (hs.kind_name ht hf) (hinput.of_suffix hrest)
      exact hnames.mono hrest

/-- The name of a function is reported after its body, and nothing is reported between them. -/
theorem inOrder_function {t : Token} (h : p.InOrder settings given ts p.input) :
    StaysInOrder settings given ts p.input (p.function t) := by
  unfold function
  split
  · next rest _ => exact (h.mono (List.nil_sublist _)).withInput rest
  · next name rest hn =>
    have hname := (within_readFunctionName _).suffix hn
    have hrest : rest <:+ p.input := (List.suffix_cons name rest).trans hname
    split
    · next hi =>
      split
      · next rest' _ => exact (h.mono (List.nil_sublist _)).withInput rest'
      · next u rest' hu =>
        have hskip : rest' <:+ rest := (List.suffix_cons u rest').trans ((within_skipSignature _).suffix hu)
        have hnameable : Nameable .function name := ⟨by rw [hi]; simp,fun _ => hi⟩
        have hreport := ((h.mono hname.sublist).withInput rest').report hnameable
        exact ⟨hreport.mono hskip.sublist,hskip.trans hrest⟩
    · exact ⟨(h.mono hrest.sublist).withInput rest,hrest⟩

theorem inOrder_declaration {t : Token} (ht : t.kind ≠ .keyword → t.keyword = none)
    (h : p.InOrder settings given ts p.input) (hs : Settled (t :: p.input)) :
    StaysInOrder settings given ts p.input (p.declaration t) := by
  have hbinding : ∀ {kind}, kind ≠ .function → t.keyword ≠ none →
      StaysInOrder settings given ts p.input (p.binding kind t) := by
    intro kind hk hword
    have hkind : t.kind = .keyword := Decidable.byContradiction fun hne => hword (ht hne)
    have hends : t.kind.mayEndStatement = false := by
      rw [hkind]
      rfl
    exact inOrder_binding hk hends h hs
  unfold declaration
  split
  · exact inOrder_function h
  · next hword => exact hbinding (by simp) (by rw [hword]; simp)
  · next hword => exact hbinding (by simp) (by rw [hword]; simp)
  · exact ⟨h,List.suffix_rfl⟩

theorem inOrder_declarations {p : Pass (List Token)} (h : p.InOrder settings given ts p.input)
    (hs : Settled p.input) (hscan : Scanned p.input) : p.declarations.2.InOrder settings given ts [] := by
  rw [declarations_eq]
  cases ha : advance p.input with
  | endOfInput left rest => exact (h.mono (List.nil_sublist _)).withInput rest
  | token t rest =>
    have hsub : t :: rest <:+ p.input := (within_advance p.input).suffix ha
    have hrest : rest <:+ p.input := (List.suffix_cons t rest).trans hsub
    have hdecl : StaysInOrder settings given ts rest ((p.withInput rest).declaration t) :=
      inOrder_declaration (hscan t (hsub.subset List.mem_cons_self)) ((h.mono hrest.sublist).withInput rest)
        (hs.of_suffix hsub)
    dsimp only
    cases hd : (p.withInput rest).declaration t with
    | endOfInput left q =>
      rw [hd] at hdecl
      exact hdecl
    | token u q =>
      rw [hd] at hdecl
      obtain ⟨hq,hinput⟩ := hdecl
      have hinput := hinput.trans hrest
      have hleft : remaining q.input < remaining p.input :=
        Nat.lt_of_le_of_lt (remaining_declaration hd) (remaining_advance ha)
      exact inOrder_declarations hq (hs.of_suffix hinput) fun t ht => hscan t (hinput.subset ht)
termination_by remaining p.input

end Pass

/-- The names that a pass over a file reports are a part of its tokens in their order. So each stands at a token
of its own, behind those before it and on no earlier line. The name of a function is an identifier, and no name
is a terminator. The tags are those of the names: the text of the token and the place where it stands. -/
theorem tagSource_inOrder (settings : TagSettings) (lexicon : Lexicon) (given : Array Tag) (f : SourceFile) :
    ∃ names : List (DeclarationKind × Token),
      tagSource settings lexicon given f.reader =
        (given ++ settings.tagsOf names,(settings.tagsOf names).length) ∧
      (names.map Prod.snd).Sublist (tokens (Scanner.ofSource f.reader lexicon)) ∧
      ((names.map Prod.snd).Pairwise fun t u => t.pos.offset < u.pos.offset ∧ t.pos.line ≤ u.pos.line) ∧
      ∀ x ∈ names, settings.kinds.contains x.1 = true ∧ x.2.kind ≠ .terminator ∧
        (x.1 = .function → x.2.kind = .identifier) := by
  have hstart := Pass.InOrder.start settings given (f.tokens lexicon)
  obtain ⟨names,hp,hsub,hnames⟩ :=
    Pass.inOrder_declarations hstart (f.settled_tokens lexicon) (f.scanned_tokens lexicon)
  rw [List.append_nil] at hsub
  rw [tagSource_eq_tokens,f.tokens_reader]
  exact ⟨names,Prod.ext hp.tags hp.count,hsub,(f.tokens_ordered lexicon).sublist hsub,hnames⟩

end SourceTags
