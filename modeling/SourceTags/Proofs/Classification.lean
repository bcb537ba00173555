import SourceTags.Proofs.Printing

/-! # Lexicons only classify words

The tiles of a file are the same with every lexicon. So what a file says is an outline: its words, the other tokens,
and after each token the terminator that follows it if it may end a statement. A lexicon decides which words are
keywords, and by that which of the terminators there are. It decides nothing else, and only its entries for texts
that words have can matter.
-/
namespace SourceTags
open TokenStream

/-- The word as the lexicon classifies it. Other tokens stay as they are. -/
def Token.classify (lexicon : Lexicon) (t : Token) : Token :=
  if t.kind = .identifier then .ofWord lexicon t.text t.pos else t

/-- The token is a word, and a keyword just where the lexicon has one for its text: that one. -/
structure Token.IsWordOf (lexicon : Lexicon) (t : Token) : Prop where
  text : Tile.IsWordText t.text
  kind : t.kind = if (lexicon.find? t.text).isSome then .keyword else .identifier
  keyword : t.keyword = lexicon.find? t.text

/-- A token, and the terminator after it if there is one. -/
structure Phrase where
  token : Token
  ending : Option Token

namespace Phrase

def tokens (x : Phrase) : List Token := x.token :: x.ending.toList

/-- What the lexicon makes of the phrase. -/
def under (lexicon : Lexicon) (x : Phrase) : Phrase :=
  let t := x.token.classify lexicon
  ⟨t,if t.kind.mayEndStatement then x.ending else none⟩

/-- A phrase in which the lexicon has classified nothing yet. -/
structure Unclassified (x : Phrase) : Prop where
  word : x.token.kind = .identifier → Tile.IsWordText x.token.text
  kind : x.token.kind ≠ .keyword ∧ x.token.kind ≠ .terminator
  ending : ∀ e ∈ x.ending, e.kind = .terminator

/-- Phrases of two lexicons. Their tokens are the same, or the same word as the one and as the other lexicon has it.
They end in the same way, unless one token is an identifier and the other one a keyword. -/
structure Reclassified (l l' : Lexicon) (x y : Phrase) : Prop where
  text : x.token.text = y.token.text
  pos : x.token.pos = y.token.pos
  token : x.token.IsWordOf l ∧ y.token.IsWordOf l' ∨
    x.token = y.token ∧ x.token.kind ∉ [.identifier,.keyword,.terminator]
  terminator : ∀ e, e ∈ x.ending ∨ e ∈ y.ending → e.kind = .terminator
  ending : x.ending = y.ending ∨ x.token.kind = .identifier ∧ y.token.kind = .keyword ∨
    x.token.kind = .keyword ∧ y.token.kind = .identifier

end Phrase

namespace Token

theorem text_ofWord (lexicon : Lexicon) (text : List UInt8) (p : Position) : (ofWord lexicon text p).text = text := by
  unfold ofWord
  split <;> rfl

theorem pos_ofWord (lexicon : Lexicon) (text : List UInt8) (p : Position) : (ofWord lexicon text p).pos = p := by
  unfold ofWord
  split <;> rfl

theorem isWordOf_ofWord (lexicon : Lexicon) {text : List UInt8} (h : Tile.IsWordText text) (p : Position) :
    (ofWord lexicon text p).IsWordOf lexicon := by
  have hspelled := Tile.spelled_ofWord lexicon text p
  refine ⟨?_,?_,?_⟩
  · rw [text_ofWord]
    exact h
  · rw [text_ofWord]
    exact congrArg Prod.fst hspelled
  · rw [text_ofWord]
    exact congrArg (·.2.1) hspelled

variable {lexicon : Lexicon} {t : Token}

theorem classify_word (h : t.kind = .identifier) : t.classify lexicon = .ofWord lexicon t.text t.pos := if_pos h

theorem classify_other (h : t.kind ≠ .identifier) : t.classify lexicon = t := if_neg h

theorem text_classify : (t.classify lexicon).text = t.text := by
  unfold classify
  split
  · exact text_ofWord ..
  · rfl

theorem pos_classify : (t.classify lexicon).pos = t.pos := by
  unfold classify
  split
  · exact pos_ofWord ..
  · rfl

theorem classify_insert (lexicon : Lexicon) {w : List UInt8} (k : Keyword) (hw : ¬Tile.IsWordText w)
    (ht : t.kind = .identifier → Tile.IsWordText t.text) : t.classify (lexicon.insert w k) = t.classify lexicon := by
  by_cases h : t.kind = .identifier
  · have hne : t.text ≠ w := by
      rintro rfl
      exact hw (ht h)
    rw [classify_word h,classify_word h,ofWord,ofWord,Lexicon.find?_insert,if_neg hne]
  · rw [classify_other h,classify_other h]

end Token

namespace Phrase

variable {x : Phrase}

theorem isWordOf_under (h : x.Unclassified) (hk : x.token.kind = .identifier) (lexicon : Lexicon) :
    (x.under lexicon).token.IsWordOf lexicon := by
  have hword : (x.under lexicon).token = .ofWord lexicon x.token.text x.token.pos := Token.classify_word hk
  rw [hword]
  exact Token.isWordOf_ofWord lexicon (h.word hk) _

theorem mem_ending_under {lexicon : Lexicon} {e : Token} (he : e ∈ (x.under lexicon).ending) : e ∈ x.ending := by
  have hending : (x.under lexicon).ending =
      if (x.token.classify lexicon).kind.mayEndStatement then x.ending else none := rfl
  rw [hending] at he
  split at he
  · exact he
  · contradiction

theorem ending_under {l l' : Lexicon} (h : (x.under l).token.kind = (x.under l').token.kind) :
    (x.under l).ending = (x.under l').ending :=
  congrArg (fun kind => if TokenKind.mayEndStatement kind then x.ending else none) h

theorem reclassified (h : x.Unclassified) (l l' : Lexicon) : Reclassified l l' (x.under l) (x.under l') where
  text := Token.text_classify.trans Token.text_classify.symm
  pos := Token.pos_classify.trans Token.pos_classify.symm
  token := by
    by_cases hk : x.token.kind = .identifier
    · exact .inl ⟨isWordOf_under h hk l,isWordOf_under h hk l'⟩
    · have hsame (lexicon : Lexicon) : (x.under lexicon).token = x.token := Token.classify_other hk
      refine .inr ⟨(hsame l).trans (hsame l').symm,?_⟩
      rw [hsame]
      simp [hk,h.kind]
  terminator := by
    rintro e (he | he)
    · exact h.ending e (mem_ending_under he)
    · exact h.ending e (mem_ending_under he)
  ending := by
    by_cases hk : x.token.kind = .identifier
    · have hkind := (isWordOf_under h hk l).kind
      have hkind' := (isWordOf_under h hk l').kind
      split at hkind <;> split at hkind'
      · exact .inl (ending_under (hkind.trans hkind'.symm))
      · exact .inr (.inr ⟨hkind,hkind'⟩)
      · exact .inr (.inl ⟨hkind,hkind'⟩)
      · exact .inl (ending_under (hkind.trans hkind'.symm))
    · have hsame (lexicon : Lexicon) : (x.under lexicon).token = x.token := Token.classify_other hk
      exact .inl (ending_under (by rw [hsame,hsame]))

end Phrase

namespace Tile

variable {lexicon : Lexicon} {ends : Bool} {p : Position} {t : Tile} {tiles : List Tile} {rest : List UInt8}

theorem token?_eq_classify (h : t.Fits rest) (lexicon : Lexicon) (p : Position) :
    t.token? lexicon p = (t.token? .empty p).map (Token.classify lexicon) := by
  cases t with
  | punctuation b kind =>
    have hne : kind ≠ .identifier := by
      rintro rfl
      cases TokenKind.byte?_of_ofByte? h
    exact congrArg some (Token.classify_other hne).symm
  | _ => rfl

theorem unclassified_of_token? {u : Token} {ending : Option Token} (h : t.Fits rest) (hu : t.token? .empty p = some u)
    (hending : ∀ e ∈ ending, e.kind = .terminator) : (Phrase.mk u ending).Unclassified := by
  have hprintable : u.IsPrintable .empty := isPrintable_of_token? h hu
  unfold Token.IsPrintable at hprintable
  refine ⟨?_,⟨?_,kind_of_token? hu h⟩,hending⟩
  · intro hk
    dsimp only at hk
    rw [hk] at hprintable
    exact hprintable.1
  · intro hk
    dsimp only at hk
    rw [hk] at hprintable
    exact hprintable.2.2 hprintable.2.1.symm

/-- The tokens of a row of tiles with any lexicon are read off one outline, after the terminator that the tiles before
the first token give if they follow a token that may end a statement. -/
theorem exists_outline (ht : Tiled tiles) (p : Position) :
    ∃ (first : Option Token) (outline : List Phrase), (∀ e ∈ first, e.kind = .terminator) ∧
      (∀ x ∈ outline, x.Unclassified) ∧ ∀ lexicon ends, tokens lexicon ends p tiles =
        (if ends then first else none).toList ++ (outline.map (Phrase.under lexicon)).flatMap Phrase.tokens := by
  induction tiles generalizing p with
  | nil => exact ⟨none,[],by simp,by simp,fun lexicon ends => by cases ends <;> rfl⟩
  | cons t tiles ih =>
    obtain ⟨hfit,htiles⟩ := ht
    obtain ⟨first,outline,hfirst,houtline,hread⟩ := ih htiles (p.pastAll t.bytes)
    cases hu : t.token? .empty p with
    | some u =>
      have hphrase : (Phrase.mk u first).Unclassified := unclassified_of_token? hfit hu hfirst
      refine ⟨none,⟨u,first⟩ :: outline,by simp,List.forall_mem_cons.mpr ⟨hphrase,houtline⟩,?_⟩
      intro lexicon ends
      have hclassify : t.token? lexicon p = some (u.classify lexicon) := by
        rw [token?_eq_classify hfit,hu]
        rfl
      rw [tokens_token hclassify,hread]
      cases ends <;> rfl
    | none =>
      have hnone (lexicon : Lexicon) : t.token? lexicon p = none := by
        rw [token?_eq_classify hfit,hu]
        rfl
      cases hb : t.breaksLine with
      | false =>
        refine ⟨first,outline,hfirst,houtline,?_⟩
        intro lexicon ends
        rw [tokens_trivia (hnone lexicon) (by rw [hb,Bool.and_false])]
        exact hread lexicon ends
      | true =>
        refine ⟨some (.bare .terminator (p.pastAll t.bytes.dropLast)),outline,?_,houtline,?_⟩
        · intro e he
          obtain rfl := Option.some.inj he
          rfl
        · intro lexicon ends
          cases ends with
          | false =>
            rw [tokens_trivia (hnone lexicon) rfl]
            exact hread lexicon false
          | true =>
            rw [tokens_break (hnone lexicon) hb,hread]
            rfl

end Tile

theorem SourceFile.exists_outline (f : SourceFile) :
    ∃ outline : List Phrase, (∀ x ∈ outline, x.Unclassified) ∧
      ∀ lexicon, f.tokens lexicon = (outline.map (Phrase.under lexicon)).flatMap Phrase.tokens := by
  obtain ⟨tiles,htiled,hspell⟩ := exists_tiles f.endsLine_content
  obtain ⟨first,outline,-,houtline,hread⟩ := Tile.exists_outline htiled ⟨1,f.start⟩
  refine ⟨outline,houtline,?_⟩
  intro lexicon
  rw [tokens_tiles htiled hspell,hread]
  rfl

theorem SourceFile.tokens_insert (f : SourceFile) (lexicon : Lexicon) {w : List UInt8} (k : Keyword)
    (hw : ¬Tile.IsWordText w) : f.tokens (lexicon.insert w k) = f.tokens lexicon := by
  obtain ⟨outline,houtline,htokens⟩ := f.exists_outline
  have hunder : outline.map (Phrase.under (lexicon.insert w k)) = outline.map (Phrase.under lexicon) := by
    apply List.map_congr_left
    intro x hx
    unfold Phrase.under
    rw [Token.classify_insert lexicon k hw (houtline x hx).word]
  rw [htokens,htokens,hunder]

/-- A lexicon only classifies. The tokens of a file with two lexicons fall into phrases that agree one by one in text
and place. A word is a keyword just where its own lexicon has its text, and the terminator after a token is the same
unless the token is an identifier with one of the lexicons and a keyword with the other. An entry for a text that is
no word, such as one that starts with a blank or goes on with an exclamation mark, changes no token and no tag. -/
theorem tokens_reclassified (f : SourceFile) (l l' : Lexicon) :
    (∃ xs ys, tokens (Scanner.ofSource f.reader l) = xs.flatMap Phrase.tokens ∧
      tokens (Scanner.ofSource f.reader l') = ys.flatMap Phrase.tokens ∧
      List.Forall₂ (Phrase.Reclassified l l') xs ys) ∧
    ∀ w k, ¬Tile.IsWordText w →
      tokens (Scanner.ofSource f.reader (l.insert w k)) = tokens (Scanner.ofSource f.reader l) ∧
      ∀ settings given, tagSource settings (l.insert w k) given f.reader = tagSource settings l given f.reader := by
  constructor
  · obtain ⟨outline,houtline,htokens⟩ := f.exists_outline
    refine ⟨outline.map (Phrase.under l),outline.map (Phrase.under l'),?_,?_,?_⟩
    · exact (f.tokens_reader l).trans (htokens l)
    · exact (f.tokens_reader l').trans (htokens l')
    · rw [List.forall₂_map_left_iff,List.forall₂_map_right_iff,List.forall₂_same]
      intro x hx
      exact Phrase.reclassified (houtline x hx) l l'
  · intro w k hw
    have htokens : tokens (Scanner.ofSource f.reader (l.insert w k)) = tokens (Scanner.ofSource f.reader l) := by
      rw [SourceFile.tokens_reader,SourceFile.tokens_reader]
      exact f.tokens_insert l k hw
    refine ⟨htokens,?_⟩
    intro settings given
    rw [tagSource_eq_tokens,tagSource_eq_tokens,htokens]

def macroTiles : List Tile :=
  [.word 109 (Utf8.encode "acro_rules"),.word 33 [],.blank Byte.newline,.word 108 (Utf8.encode "et"),
    .blank Byte.newline,.word 97 [],.blank Byte.newline]

def macroSample : SourceFile := ⟨Tile.spell macroTiles⟩

theorem tokens_macroSample (lexicon : Lexicon) :
    tokens (Scanner.ofSource macroSample.reader lexicon) = Tile.tokens lexicon false ⟨1,0⟩ macroTiles := by
  have htiled : Tile.Tiled macroTiles := by decide +kernel
  have hspell : Tile.spell macroTiles = macroSample.content := by decide +kernel
  rw [SourceFile.tokens_reader]
  exact SourceFile.tokens_tiles htiled hspell lexicon

theorem tokens_reclassified_sample :
    ¬Tile.IsWordText (Utf8.encode "macro_rules!") ∧
    (tokens (Scanner.ofSource macroSample.reader (Lexicon.empty.insert (Utf8.encode "macro_rules!") .kwMacroRules))).map
        (fun t => (t.kind,t.pos.line)) =
      [(.identifier,1),(.identifier,1),(.terminator,1),(.identifier,2),(.terminator,2),(.identifier,3),
        (.terminator,3)] ∧
    (tokens (Scanner.ofSource macroSample.reader .standard)).map (fun t => (t.kind,t.pos.line)) =
      [(.identifier,1),(.identifier,1),(.terminator,1),(.keyword,2),(.identifier,3),(.terminator,3)] := by
  have hword : ¬Tile.IsWordText (Utf8.encode "macro_rules!") := by decide +kernel
  obtain ⟨hsame,-⟩ := (tokens_reclassified macroSample .empty .standard).2 _ .kwMacroRules hword
  refine ⟨hword,?_,?_⟩
  · rw [hsame,tokens_macroSample]
    decide +kernel
  · rw [tokens_macroSample]
    decide +kernel

end SourceTags
