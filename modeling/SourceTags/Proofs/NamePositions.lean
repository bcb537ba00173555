import SourceTags.Proofs.GroupedNames
import SourceTags.Proofs.ReadingOn

/-! # Names by their positions

Which tokens are names is said here of the tokens that a declaration has read, without reading them. A binding reports
each of them as soon as it is read, so an input that ends in the middle of it costs no name that it has come to. A
function reports its one name at the end, so an input that ends before costs the name.
-/
namespace SourceTags
open TokenStream

/-- No name can be read: there is no token, or a `mut` alone. -/
inductive NoName : List Token → Prop
  | nil : NoName []
  | mutable {m} : m.hasKeyword .kwMut → NoName [m]

/-- The names that are read after a name, among the tokens that follow it. -/
inductive FurtherNames (grouped : Bool) : List Token → List Token → Prop
  | next {u name w names} : NextName grouped u name → FurtherNames grouped w names →
      FurtherNames grouped (u ++ w) (name :: names)
  | last {w} : (∀ u name rest, NextName grouped u name → w ≠ u ++ rest) → FurtherNames grouped w []

/-- The tokens in the place of a name, among those that follow the keyword of a binding. A bracket in the first place
opens a group and is none of them. -/
inductive NamePositions : List Token → List Token → Prop
  | missing {w} : NoName w → NamePositions w []
  | opened {v o w} : NamePlace v o → o.kind = .openParen → NoName w → NamePositions (v ++ w) []
  | group {v o u name w names} : NamePlace v o → o.kind = .openParen → NamePlace u name → FurtherNames true w names →
      NamePositions (v ++ (u ++ w)) (name :: names)
  | single {v name w names} : NamePlace v name → name.kind ≠ .openParen → FurtherNames false w names →
      NamePositions (v ++ w) (name :: names)

/-- The tokens up to the place of the name of a function, which a receiver can precede. -/
inductive FunctionNamePlace : List Token → Token → Prop
  | plain {name} : name.kind ≠ .openParen → FunctionNamePlace [name] name
  | receiver {g name} : Group .openParen g → FunctionNamePlace (g ++ [name]) name

section Positions

variable {grouped : Bool} {w names : List Token}

theorem FurtherNames.namesFrom (h : FurtherNames grouped w names) (name : Token) :
    namesFrom grouped name w = name :: names := by
  induction h generalizing name with
  | next hu _ ih => rw [namesFrom_name (afterName_nextName hu _),ih]
  | last hlast =>
    apply namesFrom_last
    intro next rest hn
    obtain ⟨u,hw,hu⟩ := nextName_of_afterName hn
    exact hlast u next rest hu hw

theorem readBindingName_noName (h : NoName w) : ∃ left, readBindingName w = .endOfInput left [] := by
  cases h with
  | nil => exact ⟨.fresh,rfl⟩
  | mutable hm => exact ⟨.fresh,if_pos hm⟩

theorem NamePositions.bindingNames (h : NamePositions w names) : bindingNames w = names := by
  unfold SourceTags.bindingNames
  cases h with
  | missing hw =>
    obtain ⟨_,hr⟩ := readBindingName_noName hw
    rw [hr]
  | opened hv ho hw =>
    obtain ⟨_,hr⟩ := readBindingName_noName hw
    rw [readBindingName_place hv]
    dsimp only
    rw [if_pos ho,hr]
  | group hv ho hu hw =>
    rw [readBindingName_place hv]
    dsimp only
    rw [if_pos ho,readBindingName_place hu]
    exact hw.namesFrom _
  | single hv hn hw =>
    rw [readBindingName_place hv]
    dsimp only
    rw [if_neg hn]
    exact hw.namesFrom _

end Positions

section Streams

variable {τ : Type} [TokenStream τ] {grouped : Bool} {s s' : τ} {u : List Token} {name : Token}

theorem NextName.afterName (h : NextName grouped u name) (hs : Gives s u s') : afterName grouped s = .name name s' := by
  have hlist := afterName_nextName h []
  have halike := hs.simulation.afterName grouped ⟨[],rfl,.nil⟩
  rw [List.append_nil] at hlist
  rw [hlist] at halike
  cases hn : SourceTags.afterName grouped s with
  | done | endOfInput =>
    rw [hn] at halike
    exact halike.elim
  | name next s'' =>
    rw [hn] at halike
    obtain ⟨rfl,passed,hpassed,hgives⟩ := halike
    rw [List.append_nil] at hpassed
    rw [hgives.unique (hpassed ▸ hs)]

theorem exists_nextName (h : afterName grouped s = .name name s') : ∃ u, Gives s u s' ∧ NextName grouped u name := by
  have halike := simulation_tokens.afterName grouped (rfl : tokens s = tokens s)
  have hreads := readsOn_afterName grouped s
  rw [h] at halike hreads
  obtain ⟨u,hu⟩ := hreads
  cases hn : afterName grouped (tokens s) with
  | done | endOfInput =>
    rw [hn] at halike
    exact halike.elim
  | name next rest =>
    rw [hn] at halike
    obtain ⟨rfl,rfl⟩ := halike
    obtain ⟨u',htokens,hnext⟩ := nextName_of_afterName hn
    obtain rfl := hu.eq_of_tokens htokens
    exact ⟨u,hu,hnext⟩

theorem furtherNames_nil {w : List Token} (h : ∀ next s', afterName grouped s ≠ .name next s')
    (hw : (afterName grouped s).reading.Reads s w) : FurtherNames grouped w [] := by
  refine .last ?_
  rintro u next rest hu rfl
  obtain ⟨e,he⟩ := hw.gives
  obtain ⟨s',hs',-⟩ := he.split
  exact h next s' (hu.afterName hs')

theorem readBindingName_reads (s : τ) :
    ∃ w, (readBindingName s).Reads s w ∧ ((∃ name s', readBindingName s = .token name s' ∧ NamePlace w name) ∨
      ∃ left s', readBindingName s = .endOfInput left s' ∧ NoName w) := by
  unfold readBindingName
  cases ha : advance s with
  | endOfInput left s' => exact ⟨[],⟨s,left,.nil,ha⟩,.inr ⟨left,s',rfl,.nil⟩⟩
  | token t s' =>
    rw [Reading.andThen_token]
    split
    · next hm =>
      cases ha' : advance s' with
      | endOfInput left s'' =>
        exact ⟨[t],⟨s',left,.cons ha .nil,ha'⟩,.inr ⟨left,s'',rfl,.mutable hm⟩⟩
      | token name s'' =>
        exact ⟨[t,name],.cons ha (.cons ha' .nil),.inl ⟨name,s'',rfl,.mutable hm⟩⟩
    · next hm => exact ⟨[t],.cons ha .nil,.inl ⟨t,s',rfl,.plain hm⟩⟩

theorem exists_functionNamePlace (h : readFunctionName s = .token name s') :
    ∃ v, Gives s v s' ∧ FunctionNamePlace v name := by
  obtain ⟨t,rest,ha,h⟩ := Reading.andThen_eq_token.mp h
  split at h
  · next ho =>
    have hreads := readsOn_skipGroup t rest
    have halike := simulation_tokens.skipGroup (t := t) rfl (rfl : tokens rest = tokens rest)
    obtain ⟨more,hr,rfl⟩ := halike.of_token h
    rw [h] at hreads
    obtain ⟨ts,hts⟩ := hreads
    obtain ⟨g,htokens,hg⟩ := group_of_skipGroup (by rw [ho]; rfl) hr
    obtain rfl : ts = g ++ [name] := by
      apply hts.eq_of_tokens
      rw [htokens,List.append_assoc,List.singleton_append]
    exact ⟨t :: g ++ [name],.cons ha hts,.receiver (ho ▸ hg)⟩
  · next ho =>
    obtain ⟨rfl,rfl⟩ := Reading.token.inj h
    exact ⟨[t],.cons ha .nil,.plain ho⟩

namespace Pass

theorem names_furtherNames (kind : DeclarationKind) (grouped : Bool) (name : Token) (p : Pass τ) :
    ∃ w names, ((p.names kind grouped name).map input).Reads p.input w ∧ FurtherNames grouped w names ∧
      namesFrom grouped name p.input = name :: names := by
  have hreads := readsOn_afterName grouped p.input
  rw [names_eq]
  cases hn : afterName grouped p.input with
  | endOfInput | done =>
    have hnone : ∀ next s', afterName grouped p.input ≠ .name next s' := by simp [hn]
    obtain ⟨w,hw⟩ := hreads
    refine ⟨w,[],?_,furtherNames_nil hnone hw,namesFrom_last hnone name⟩
    rw [hn] at hw
    exact hw
  | name next s =>
    obtain ⟨u,hu,hnext⟩ := exists_nextName hn
    have hlt := remaining_afterName (.inl hn)
    obtain ⟨w,names,hw,hnames,hfrom⟩ := names_furtherNames kind grouped next ((p.report kind name).withInput s)
    refine ⟨u ++ w,next :: names,hw.after hu,.next hnext hnames,?_⟩
    rw [namesFrom_name hn]
    exact congrArg _ hfrom
termination_by remaining p.input

theorem binding_namePositions (kind : DeclarationKind) (t : Token) (p : Pass τ) :
    ∃ w, ((p.binding kind t).map input).Reads p.input w ∧ NamePositions w (bindingNames p.input) := by
  unfold binding bindingNames
  obtain ⟨v,hv,⟨first,s,hr,hplace⟩ | ⟨left,s,hr,hnone⟩⟩ := readBindingName_reads p.input
  · rw [hr] at hv ⊢
    dsimp only
    split
    · next ho =>
      obtain ⟨u,hu,⟨name,s',hr',hplace'⟩ | ⟨left,s',hr',hnone⟩⟩ := readBindingName_reads s
      · rw [hr'] at hu ⊢
        obtain ⟨w,names,hw,hnames,hfrom⟩ := names_furtherNames kind true name (p.withInput s')
        dsimp only
        rw [show namesFrom true name s' = name :: names from hfrom]
        exact ⟨v ++ (u ++ w),(hw.after hu).after hv,.group hplace ho hplace' hnames⟩
      · rw [hr'] at hu ⊢
        exact ⟨v ++ u,hu.after hv,.opened hplace ho hnone⟩
    · next ho =>
      obtain ⟨w,names,hw,hnames,hfrom⟩ := names_furtherNames kind false first (p.withInput s)
      rw [show namesFrom false first s = first :: names from hfrom]
      exact ⟨v ++ w,hw.after hv,.single hplace ho hnames⟩
  · rw [hr] at hv ⊢
    exact ⟨v,hv,.missing hnone⟩

theorem function_namePlace (t : Token) (p : Pass τ) :
    (∃ left s', p.function t = .endOfInput left (p.withInput s')) ∨
    ∃ v name more s' t', Gives p.input (v ++ more) s' ∧ FunctionNamePlace v name ∧
      p.function t =
        .token t' ((p.reportAll (if name.kind = .identifier then [(.function,name)] else [])).withInput s') := by
  unfold function
  cases hr : readFunctionName p.input with
  | endOfInput => exact .inl ⟨_,_,rfl⟩
  | token name s =>
    obtain ⟨v,hv,hplace⟩ := exists_functionNamePlace hr
    dsimp only
    by_cases hn : name.kind = .identifier
    · rw [if_pos hn]
      have hreads := readsOn_skipSignature s
      cases hr' : skipSignature s with
      | endOfInput => exact .inl ⟨_,_,rfl⟩
      | token t' s' =>
        rw [hr'] at hreads
        obtain ⟨more,hmore⟩ := hreads
        exact .inr ⟨v,name,more,s',t',hv.append hmore,hplace,by rw [if_pos hn]; rfl⟩
    · rw [if_neg hn]
      exact .inr ⟨v,name,[],s,t,by rw [List.append_nil]; exact hv,hplace,by rw [if_neg hn]; rfl⟩

end Pass

/-- A function that the input cuts short reports nothing. Any other has one tag if an identifier stands in the place
of its name, and none if not. A binding, cut short or not, has one tag for each token in the place of a name among
those that it has read, in their order. -/
theorem reports_namePositions (s : τ) (qualified : Bool) (tags : Array Tag) (count : Nat) (t : Token) :
    let p : Pass τ := ⟨s,⟨.all,qualified,none⟩,tags,count⟩
    (match p.function t with
      | .endOfInput _ q => q.tags = tags ∧ q.count = count
      | .token _ q => ∃ v name more, Gives s (v ++ more) q.input ∧ FunctionNamePlace v name ∧
          let found := if name.kind = .identifier then [Tag.ofToken .function name] else []
          q.tags = tags ++ found ∧ q.count = count + found.length) ∧
    ∀ kind, ∃ w found, ((p.binding kind t).map Pass.input).Reads s w ∧
      (∀ names, NamePositions w names ↔ names = found) ∧
      (p.binding kind t).rest.tags = tags ++ found.map (Tag.ofToken kind) ∧
      (p.binding kind t).rest.count = count + found.length := by
  intro p
  have hqualifier : p.settings.qualifier = none := by cases qualified <;> rfl
  constructor
  · rcases p.function_namePlace t with ⟨left,s',hend⟩ | ⟨v,name,more,s',t',hv,hplace,htoken⟩
    · rw [hend]
      exact ⟨rfl,rfl⟩
    · rw [htoken]
      refine ⟨v,name,more,hv,hplace,?_⟩
      by_cases hn : name.kind = .identifier
      · simp only [if_pos hn]
        exact p.reportAll_unqualified rfl hqualifier [(.function,name)]
      · simp only [if_neg hn]
        exact p.reportAll_unqualified rfl hqualifier []
  · intro kind
    obtain ⟨w,hw,hnames⟩ := p.binding_namePositions kind t
    obtain ⟨s',hrest⟩ := p.rest_binding kind t
    have hreport := p.reportAll_unqualified rfl hqualifier ((bindingNames p.input).map (Prod.mk kind))
    rw [List.map_map,List.length_map] at hreport
    refine ⟨w,bindingNames p.input,hw,?_,?_⟩
    · intro names
      constructor
      · intro h
        exact h.bindingNames.symm.trans hnames.bindingNames
      · rintro rfl
        exact hnames
    · rw [hrest]
      exact hreport

end Streams

end SourceTags
