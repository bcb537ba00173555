import SourceTags.Proofs.Printing

/-! # What every token is like

Whatever source a scanner reads, and from whatever place in it, a token that it gives can be printed. So it has one
of the kinds that tokens of a source have, a keyword just where the lexicon has one for its text, and a text only if
it is a word or a literal. The text of a word is never empty, for the byte that starts a word belongs to it.
-/
namespace SourceTags
open ByteSource TokenStream

/-- The parts of a token fit together. -/
structure Token.Coherent (lexicon : Lexicon) (t : Token) : Prop where
  kind : t.kind ≠ .absent ∧ t.kind ≠ .character ∧ t.kind ≠ .doubleColon
  keyword : t.keyword ≠ none ↔ t.kind = .keyword
  entry : t.kind = .keyword → t.keyword = lexicon.find? t.text
  word : t.kind = .identifier ∨ t.kind = .keyword → t.text ≠ []
  bare : t.kind ≠ .identifier → t.kind ≠ .keyword → t.kind ≠ .string → t.text = []

theorem Tile.IsWordText.ne_nil {text : List UInt8} (h : IsWordText text) : text ≠ [] := by
  rintro rfl
  exact h

theorem Token.IsPrintable.coherent {lexicon : Lexicon} {t : Token} (h : t.IsPrintable lexicon) :
    t.Coherent lexicon := by
  obtain ⟨kind,keyword,text,pos⟩ := t
  cases kind with
  | absent | character | doubleColon => exact h.elim
  | identifier =>
    obtain ⟨htext,-,rfl⟩ := h
    exact ⟨by simp,by simp,by simp,fun _ => htext.ne_nil,by simp⟩
  | keyword =>
    obtain ⟨htext,hfind,hkeyword⟩ := h
    exact ⟨by simp,by simpa using hkeyword,fun _ => hfind.symm,fun _ => htext.ne_nil,by simp⟩
  | string =>
    obtain rfl := h
    exact ⟨by simp,by simp,by simp,by simp,by simp⟩
  | _ =>
    obtain ⟨rfl,rfl⟩ := h
    exact ⟨by simp,by simp,by simp,by simp,by simp⟩

section Scanner

variable {σ : Type} [ByteSource σ] {lexicon : Lexicon} {ends : Bool} {b : UInt8} {s rest : σ} {t : Token}

theorem isBlank_of_afterBlanks (h : afterBlanks ends s = .byte b rest) : Byte.isBlank b = false := by
  fun_induction afterBlanks ends s with
  | case1 | case2 => contradiction
  | case3 _ _ _ _ _ _ ih => exact ih h
  | case4 _ _ _ _ _ hb =>
    obtain ⟨rfl,-⟩ := AfterBlanks.byte.inj h
    exact Bool.eq_false_iff.mpr hb

theorem exists_readWord (text : List UInt8) (s : σ) :
    ∃ more, (readWord text s).text = text.reverse ++ more ∧ ∀ b ∈ more, Byte.isWord b = true := by
  fun_induction readWord text s with
  | case1 | case3 => exact ⟨[],by simp⟩
  | case2 text s b rest _ hb ih =>
    obtain ⟨more,hmore,hall⟩ := ih
    refine ⟨b :: more,?_,List.forall_mem_cons.mpr ⟨hb,hall⟩⟩
    rw [hmore,List.reverse_cons,List.append_assoc,List.singleton_append]

theorem isPrintable_of_lexeme (hb : Byte.isBlank b = false) (h : lexeme lexicon b s = .token t rest) :
    t.IsPrintable lexicon := by
  unfold lexeme at h
  split at h
  · unfold lexemeAtSlash at h
    repeat' split at h
    all_goals cases h
    all_goals exact ⟨rfl,rfl⟩
  next hslash =>
  split at h
  · unfold lexemeAtLess at h
    repeat' split at h
    all_goals cases h
    exact ⟨rfl,rfl⟩
  next hless =>
  split at h
  · cases h
    exact rfl
  next hdelimiter =>
  split at h
  · next hkind =>
    cases h
    exact Tile.isPrintable_ofByte? hkind _
  · next hkind =>
    cases h
    obtain ⟨more,hmore,hall⟩ := exists_readWord [b] s
    have hword : Tile.IsWordText (readWord [b] s).text := by
      rw [hmore]
      exact ⟨⟨hb,hslash,hless,Bool.eq_false_iff.mpr hdelimiter,hkind⟩,hall⟩
    exact Tile.isPrintable_ofWord hword _

/-- However often the scan starts anew, the token that it comes to is given as a whole. -/
theorem isPrintable_of_nextToken (h : nextToken lexicon ends s = .token t rest) : t.IsPrintable lexicon := by
  fun_induction nextToken lexicon ends s with
  | case1 => contradiction
  | case2 =>
    obtain ⟨rfl,-⟩ := Reading.token.inj h
    exact ⟨rfl,rfl⟩
  | case3 _ _ _ hb _ _ hl =>
    obtain ⟨rfl,-⟩ := Reading.token.inj h
    exact isPrintable_of_lexeme (isBlank_of_afterBlanks hb) hl
  | case4 _ _ _ _ _ _ ih => exact ih h

theorem left_of_nextToken {left : Token} (h : nextToken lexicon ends s = .endOfInput left rest) :
    left = .bare .absent left.pos := by
  fun_induction nextToken lexicon ends s with
  | case1 =>
    obtain ⟨rfl,-⟩ := Reading.endOfInput.inj h
    rfl
  | case2 | case3 => contradiction
  | case4 _ _ _ _ _ _ ih => exact ih h

variable {z z' : Scanner σ}

theorem isPrintable_of_advance (h : advance z = .token t z') :
    t.IsPrintable z.lexicon ∧ z'.lexicon = z.lexicon ∧ z'.previous = t.kind := by
  change z.advance = _ at h
  unfold Scanner.advance at h
  split at h
  · next hnext =>
    obtain ⟨rfl,rfl⟩ := Reading.token.inj h
    exact ⟨isPrintable_of_nextToken hnext,rfl,rfl⟩
  · contradiction

theorem keyword_of_advance (h : advance z = .token t z') (ht : t.kind ≠ .keyword) : t.keyword = none :=
  Decidable.byContradiction fun hk => ht ((isPrintable_of_advance h).1.coherent.keyword.mp hk)

theorem left_of_advance {left : Token} (h : advance z = .endOfInput left z') :
    left = .bare .absent left.pos ∧ z'.lexicon = z.lexicon ∧ z'.previous = z.previous := by
  change z.advance = _ at h
  unfold Scanner.advance at h
  split at h
  · contradiction
  · next hnext =>
    obtain ⟨rfl,rfl⟩ := Reading.endOfInput.inj h
    exact ⟨left_of_nextToken hnext,rfl,rfl⟩

theorem isPrintable_of_mem_tokens (h : t ∈ tokens z) : t.IsPrintable z.lexicon := by
  fun_induction tokens z with
  | case1 z u rest ha ih =>
    obtain ⟨hu,hlexicon,-⟩ := isPrintable_of_advance ha
    rcases List.mem_cons.mp h with rfl | h
    · exact hu
    · rw [← hlexicon]
      exact ih h
  | case2 => contradiction

theorem scanned_tokens (z : Scanner σ) : Scanned (tokens z) :=
  fun _ ht hk => Decidable.byContradiction fun hne => hk ((isPrintable_of_mem_tokens ht).coherent.keyword.mp hne)

end Scanner

end SourceTags
