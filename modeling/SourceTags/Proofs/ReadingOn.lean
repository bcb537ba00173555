import SourceTags.Proofs.StreamPrefix

/-! # Reading on to the end

Every routine reads token after token from where it starts. It stops at a place that the stream comes to by giving
tokens, or at the end of the input, and then the one reading that failed was its last. So a routine that ends with
the input has read all tokens, and a whole pass asks once more than the input has tokens.
-/
namespace SourceTags
open TokenStream

variable {τ : Type} [TokenStream τ]

namespace Gives

variable {s s' : τ} {ts us : List Token}

theorem eq_of_tokens (h : Gives s ts s') (hs : tokens s = us ++ tokens s') : ts = us :=
  List.append_cancel_right (h.tokens_eq.symm.trans hs)

theorem eq_tokens {left : Token} {e : τ} (h : Gives s ts e) (he : advance e = .endOfInput left s') :
    ts = tokens s := by
  rw [h.tokens_eq,tokens_endOfInput he,List.append_nil]

end Gives

namespace Reading

/-- From `s` on the reading has read these tokens, and failed at the end of the input if it did. -/
def Reads (s : τ) (ts : List Token) : Reading τ → Prop
  | token _ s' => Gives s ts s'
  | endOfInput _ s' => ∃ e left, Gives s ts e ∧ advance e = endOfInput left s'

/-- The reading has come to its place by reading on from `s`. -/
def ReadsOn (s : τ) (r : Reading τ) : Prop := ∃ ts, r.Reads s ts

section

variable {s s' : τ} {r : Reading τ} {ts us : List Token}

theorem Reads.after (h : r.Reads s' us) (hs : Gives s ts s') : r.Reads s (ts ++ us) := by
  cases r with
  | token => exact hs.append h
  | endOfInput =>
    obtain ⟨e,left,hus,he⟩ := h
    exact ⟨e,left,hs.append hus,he⟩

theorem Reads.gives (h : r.Reads s ts) : ∃ s', Gives s ts s' := by
  cases r with
  | token _ s' => exact ⟨s',h⟩
  | endOfInput =>
    obtain ⟨e,_,hts,-⟩ := h
    exact ⟨e,hts⟩

end

namespace ReadsOn

variable {s s' : τ} {r : Reading τ} {f : Token → τ → Reading τ} {ts : List Token}

theorem stay (t : Token) (s : τ) : (token t s).ReadsOn s := ⟨[],.nil⟩

theorem after (h : r.ReadsOn s') (hs : Gives s ts s') : r.ReadsOn s := by
  obtain ⟨us,hus⟩ := h
  exact ⟨ts ++ us,hus.after hs⟩

theorem andThen (h : r.ReadsOn s) (hf : ∀ t s', r = token t s' → (f t s').ReadsOn s') : (r.andThen f).ReadsOn s := by
  cases r with
  | token t s' =>
    obtain ⟨ts,hts⟩ := h
    exact (hf t s' rfl).after hts
  | endOfInput => exact h

end ReadsOn

end Reading
open Reading

section Routines

theorem readsOn_advance (s : τ) : (advance s).ReadsOn s := by
  cases ha : advance s with
  | token t s' => exact ⟨[t],.cons ha .nil⟩
  | endOfInput left s' => exact ⟨[],s,left,.nil,ha⟩

theorem readsOn_closeGroup (opening closing : TokenKind) (inner : Nat) (s : τ) :
    (closeGroup opening closing inner s).ReadsOn s := by
  rw [closeGroup_eq]
  refine (readsOn_advance s).andThen ?_
  intro t s' ha
  have := remaining_advance ha
  split
  · exact readsOn_closeGroup ..
  · split
    · cases inner with
      | zero => exact readsOn_advance s'
      | succ inner => exact readsOn_closeGroup ..
    · exact readsOn_closeGroup ..
termination_by remaining s

theorem readsOn_skipGroup (t : Token) (s : τ) : (skipGroup t s).ReadsOn s := by
  unfold skipGroup
  split
  · exact .stay t s
  · exact readsOn_closeGroup ..

theorem readsOn_readGroup (s : τ) : (readGroup s).ReadsOn s :=
  (readsOn_advance s).andThen fun t s' _ => readsOn_skipGroup t s'

theorem readsOn_seekTerminator (t : Token) (s : τ) : (seekTerminator t s).ReadsOn s := by
  by_cases ht : t.kind = .terminator
  · rw [seekTerminator_terminator ht]
    exact .stay t s
  · rw [seekTerminator_of_ne ht]
    refine (readsOn_readGroup s).andThen ?_
    intro u s' hr
    have := remaining_readGroup hr
    exact readsOn_seekTerminator u s'
termination_by remaining s

theorem readsOn_skipTypeName (s : τ) : (skipTypeName s).ReadsOn s := by
  refine (readsOn_advance s).andThen ?_
  intro t s' _
  split
  · exact (readsOn_advance s').andThen fun _ s'' _ => readsOn_advance s''
  · exact .stay t s'

theorem readsOn_skipTypeStart (form : TypeForm) (t : Token) (s : τ) : (skipTypeStart form t s).ReadsOn s := by
  cases form with
  | missing => exact .stay t s
  | group | element => exact readsOn_skipGroup t s
  | name => exact readsOn_skipTypeName s
  | body | signature => exact readsOn_readGroup s
  | sign => exact readsOn_advance s

theorem readsOn_skipTypeExpr (t : Token) (s : τ) : (skipTypeExpr t s).ReadsOn s := by
  rw [skipTypeExpr_eq]
  refine (readsOn_skipTypeStart _ t s).andThen ?_
  intro u s' hr
  split
  · next hi =>
    have := remaining_skipTypeStart_lt hi hr
    exact readsOn_skipTypeExpr u s'
  · exact .stay u s'
termination_by remaining s

theorem readsOn_skipSignature (s : τ) : (skipSignature s).ReadsOn s := by
  refine ((readsOn_readGroup s).andThen fun t s' _ => readsOn_skipTypeExpr t s').andThen ?_
  intro t s' _
  unfold skipBody
  split
  · exact readsOn_skipGroup t s'
  · exact .stay t s'

theorem readsOn_readFunctionName (s : τ) : (readFunctionName s).ReadsOn s := by
  refine (readsOn_advance s).andThen ?_
  intro t s' _
  split
  · exact readsOn_skipGroup t s'
  · exact .stay t s'

theorem readsOn_readBindingName (s : τ) : (readBindingName s).ReadsOn s := by
  refine (readsOn_advance s).andThen ?_
  intro t s' _
  split
  · exact readsOn_advance s'
  · exact .stay t s'

end Routines

def AfterName.reading : AfterName τ → Reading τ
  | name t s | done t s => .token t s
  | endOfInput left s => .endOfInput left s

section AfterName

theorem readsOn_afterComma (comma : Token) (s : τ) : (afterComma comma s).reading.ReadsOn s := by
  have h := readsOn_readBindingName s
  unfold afterComma
  cases hr : readBindingName s with
  | token | endOfInput =>
    rw [hr] at h
    exact h

theorem readsOn_afterTerminator (terminator : Token) (s : τ) : (afterTerminator terminator s).reading.ReadsOn s := by
  have h := readsOn_readBindingName s
  unfold afterTerminator
  cases hr : readBindingName s with
  | endOfInput =>
    rw [hr] at h
    exact h
  | token name s' =>
    rw [hr] at h
    dsimp only
    split <;> exact h

theorem readsOn_afterName (grouped : Bool) (s : τ) : (afterName grouped s).reading.ReadsOn s := by
  have h := readsOn_advance s
  unfold afterName
  cases ha : advance s with
  | endOfInput =>
    rw [ha] at h
    exact h
  | token t s' =>
    rw [ha] at h
    obtain ⟨ts,hts⟩ := h
    dsimp only
    split
    · exact (readsOn_afterComma t s').after hts
    · have hskip := ((readsOn_skipTypeExpr t s').andThen fun u s'' _ => readsOn_seekTerminator u s'').after hts
      cases hr : (skipTypeExpr t s').andThen seekTerminator with
      | endOfInput =>
        rw [hr] at hskip
        exact hskip
      | token last s'' =>
        rw [hr] at hskip
        obtain ⟨us,hus⟩ := hskip
        dsimp only
        split
        · exact (readsOn_afterTerminator last s'').after hus
        · exact ⟨us,hus⟩

end AfterName

namespace Pass

/-- The routines that report names read on in the same way. -/
abbrev ReadsOn (p : Pass τ) (r : Reading (Pass τ)) : Prop := (r.map input).ReadsOn p.input

theorem readsOn_names (kind : DeclarationKind) (grouped : Bool) (name : Token) (p : Pass τ) :
    p.ReadsOn (p.names kind grouped name) := by
  have h := readsOn_afterName grouped p.input
  rw [names_eq]
  cases hn : afterName grouped p.input with
  | endOfInput | done =>
    rw [hn] at h
    exact h
  | name next s =>
    rw [hn] at h
    obtain ⟨ts,hts⟩ := h
    have := remaining_afterName (.inl hn)
    exact (readsOn_names kind grouped next ((p.report kind name).withInput s)).after hts
termination_by remaining p.input

theorem readsOn_binding (kind : DeclarationKind) (t : Token) (p : Pass τ) : p.ReadsOn (p.binding kind t) := by
  have h := readsOn_readBindingName p.input
  unfold binding
  cases hr : readBindingName p.input with
  | endOfInput =>
    rw [hr] at h
    exact h
  | token first s =>
    rw [hr] at h
    obtain ⟨ts,hts⟩ := h
    have h' := (readsOn_readBindingName s).after hts
    dsimp only
    split
    · cases hr' : readBindingName s with
      | endOfInput =>
        rw [hr'] at h'
        exact h'
      | token name s' =>
        rw [hr'] at h'
        obtain ⟨us,hus⟩ := h'
        exact (readsOn_names kind true name (p.withInput s')).after hus
    · exact (readsOn_names kind false first (p.withInput s)).after hts

theorem readsOn_function (t : Token) (p : Pass τ) : p.ReadsOn (p.function t) := by
  have h := readsOn_readFunctionName p.input
  unfold function
  cases hr : readFunctionName p.input with
  | endOfInput =>
    rw [hr] at h
    exact h
  | token name s =>
    rw [hr] at h
    obtain ⟨ts,hts⟩ := h
    have h' := (readsOn_skipSignature s).after hts
    dsimp only
    split
    · cases hr' : skipSignature s with
      | token | endOfInput =>
        rw [hr'] at h'
        exact h'
    · exact ⟨ts,hts⟩

theorem readsOn_declaration (t : Token) (p : Pass τ) : p.ReadsOn (p.declaration t) := by
  unfold declaration
  split
  · exact readsOn_function t p
  · exact readsOn_binding _ t p
  · exact readsOn_binding _ t p
  · exact .stay t p.input

/-- A pass reads all tokens of its input, and the one reading after them is its last. -/
theorem readsOn_declarations (p : Pass τ) :
    ∃ e left, Gives p.input (tokens p.input) e ∧ advance e = .endOfInput left p.declarations.2.input := by
  have h := readsOn_advance p.input
  rw [declarations_eq]
  cases ha : advance p.input with
  | endOfInput left s =>
    rw [tokens_endOfInput ha]
    exact ⟨p.input,left,.nil,ha⟩
  | token t s =>
    rw [ha] at h
    obtain ⟨ts,hts⟩ := h
    have hd := (readsOn_declaration t (p.withInput s)).after hts
    dsimp only
    cases hr : (p.withInput s).declaration t with
    | endOfInput left q =>
      rw [hr] at hd
      obtain ⟨us,e,left',hus,he⟩ := hd
      exact ⟨e,left',hus.eq_tokens he ▸ hus,he⟩
    | token u q =>
      rw [hr] at hd
      obtain ⟨us,hus⟩ := hd
      have := Nat.lt_of_le_of_lt (remaining_declaration hr) (remaining_advance ha)
      obtain ⟨e,left,hq,he⟩ := readsOn_declarations q
      have hall := hus.append hq
      exact ⟨e,left,hall.eq_tokens he ▸ hall,he⟩
termination_by remaining p.input

end Pass

end SourceTags
