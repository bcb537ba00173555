import SourceTags.Proofs.Comments
import SourceTags.Proofs.Concatenation
import SourceTags.Proofs.NamesInOrder

/-! # Printed tokens are read back

A list of tokens is printed with a space before each: words as they are, strings between double quotes, and every
terminator as a newline. Whatever stands in the strings, a scanner reads the tokens back, of the kinds and with the
keywords and texts that they had. It adds one terminator if the last token may end a statement, for the newline that
the file then lacks. The tokens of every file can be printed so.
-/
namespace SourceTags
open TokenStream

namespace TokenKind

def byte? (kind : TokenKind) : Option UInt8 := (punctuation.find? (·.2 == kind)).map Prod.fst

theorem ofByte?_of_byte? {kind : TokenKind} {b : UInt8} (h : kind.byte? = some b) : ofByte? b = some kind := by
  cases kind <;> cases h <;> rfl

theorem byte?_of_ofByte? {kind : TokenKind} {b : UInt8} (h : ofByte? b = some kind) : kind.byte? = some b := by
  obtain ⟨before,after,hp,-⟩ := List.lookup_eq_some_iff.mp h
  have hall : ∀ x ∈ punctuation, x.2.byte? = some x.1 := by decide
  exact hall (b,kind) (hp ▸ by simp)

end TokenKind

namespace Token

/-- A text between double quotes, with a backslash before each double quote and each backslash in it. -/
def quoted (text : List UInt8) : List UInt8 :=
  Byte.quote :: (text.flatMap (fun b => if b = Byte.quote ∨ b = Byte.backslash then [Byte.backslash,b] else [b]) ++
    [Byte.quote])

def spelling (t : Token) : List UInt8 :=
  match t.kind with
  | .identifier | .keyword => t.text
  | .string => quoted t.text
  | .forwardSlash => [Byte.slash]
  | .leftArrow => [Byte.less,Byte.dash]
  | .terminator => [Byte.newline]
  | kind => kind.byte?.toList

/-- The spelling after a space. Before the newline of a terminator the space may be left out. -/
def printed (spaced : Bool) (t : Token) : List UInt8 :=
  if t.kind = .terminator ∧ spaced = false then t.spelling else Byte.space :: t.spelling

/-- Words are classified as the lexicon says, and only words and strings have a text. -/
def IsPrintable (lexicon : Lexicon) (t : Token) : Prop :=
  match t.kind with
  | .identifier => Tile.IsWordText t.text ∧ lexicon.find? t.text = none ∧ t.keyword = none
  | .keyword => Tile.IsWordText t.text ∧ lexicon.find? t.text = t.keyword ∧ t.keyword ≠ none
  | .string => t.keyword = none
  | .absent | .character | .doubleColon => False
  | _ => t.keyword = none ∧ t.text = []

variable {t : Token}

theorem spelling_terminator (h : t.kind = .terminator) : t.spelling = [Byte.newline] := by
  unfold spelling
  rw [h]

theorem IsPrintable.spelled_terminator {lexicon : Lexicon} (ht : t.IsPrintable lexicon) (h : t.kind = .terminator) :
    t.spelled = (.terminator,none,[]) := by
  unfold IsPrintable at ht
  rw [h] at ht
  rw [spelled,h,ht.1,ht.2]

end Token

/-- A terminator stands only after a token that may end a statement, and so none comes first. -/
structure Printable (lexicon : Lexicon) (ts : List Token) : Prop where
  each : ∀ t ∈ ts, t.IsPrintable lexicon
  first : ∀ t ∈ ts.head?, t.kind ≠ .terminator
  settled : Settled ts

def printTokens (spaced : Bool) (ts : List Token) : List UInt8 := ts.flatMap (Token.printed spaced)

def StartsBlank (bytes : List UInt8) : Prop := ∀ b ∈ bytes.head?, Byte.isBlank b = true

namespace LiteralByte

def quote (b : UInt8) : LiteralByte := if b = Byte.quote ∨ b = Byte.backslash then escaped b else plain b

theorem value_quote (b : UInt8) : (quote b).value = b := by
  unfold quote
  split <;> rfl

theorem bytes_quote (b : UInt8) :
    (quote b).bytes = if b = Byte.quote ∨ b = Byte.backslash then [Byte.backslash,b] else [b] := by
  unfold quote
  split <;> rfl

theorem fits_quote (b : UInt8) : (quote b).Fits Byte.quote := by
  unfold quote
  split
  · exact show Byte.quote ≠ Byte.backtick by decide
  · next h =>
    rw [not_or] at h
    exact ⟨h.1,fun hb => absurd hb h.2⟩

end LiteralByte

namespace Tile

variable {lexicon : Lexicon} {t : Token} {tile : Tile} {rest bytes : List UInt8}

theorem isWord_blank {b : UInt8} (h : Byte.isBlank b = true) :
    Byte.isWord b = false ∧ b ≠ Byte.slash ∧ b ≠ Byte.star := by
  simp only [Byte.isBlank,Bool.or_eq_true,beq_iff_eq] at h
  rcases h with ((rfl | rfl) | rfl) | rfl <;> decide

theorem isBlank_of_isWord {b : UInt8} (h : Byte.isWord b = true) : Byte.isBlank b = false := by
  cases hb : Byte.isBlank b with
  | false => rfl
  | true =>
    rw [(isWord_blank hb).1] at h
    contradiction

theorem isBlank_last {last : UInt8} (h : bytes.getLast? = some last) (hb : Byte.isBlank last = false) :
    ∀ b ∈ bytes.getLast?, Byte.isBlank b = false := by
  intro b hlast
  rw [h] at hlast
  obtain rfl := Option.some.inj hlast
  exact hb

/-- The tile spells the token wherever a blank or nothing follows it, and ends in no blank. -/
structure Spells (lexicon : Lexicon) (tile : Tile) (t : Token) : Prop where
  bytes : tile.bytes = t.spelling
  fits : ∀ {rest}, StartsBlank rest → tile.Fits rest
  token : ∀ p, ∃ u, tile.token? lexicon p = some u ∧ u.spelled = t.spelled
  last : ∀ b ∈ tile.bytes.getLast?, Byte.isBlank b = false

theorem spelled_ofWord (lexicon : Lexicon) (text : List UInt8) (p : Position) :
    (Token.ofWord lexicon text p).spelled =
      (if (lexicon.find? text).isSome then .keyword else .identifier,lexicon.find? text,text) := by
  unfold Token.ofWord
  cases lexicon.find? text <;> rfl

theorem spells_word (htext : IsWordText t.text) (hspelling : t.spelling = t.text)
    (hspelled : t.spelled =
      (if (lexicon.find? t.text).isSome then .keyword else .identifier,lexicon.find? t.text,t.text)) :
    ∃ tile, Spells lexicon tile t := by
  obtain ⟨kind,keyword,text,pos⟩ := t
  dsimp only at htext hspelled
  cases text with
  | nil => exact htext.elim
  | cons first more =>
    obtain ⟨hfirst,hmore⟩ := htext
    refine ⟨word first more,hspelling.symm,?_,?_,?_⟩
    · intro rest hrest
      exact ⟨hfirst,hmore,fun b hb => (isWord_blank (hrest b hb)).1⟩
    · intro p
      exact ⟨_,rfl,(spelled_ofWord ..).trans hspelled.symm⟩
    · rcases List.eq_nil_or_concat more with rfl | ⟨init,x,rfl⟩
      · exact isBlank_last rfl hfirst.1
      · rw [List.concat_eq_append] at hmore ⊢
        have hlast : (first :: init ++ [x]).getLast? = some x := List.getLast?_concat
        exact isBlank_last hlast (isBlank_of_isWord (hmore x (by simp)))

theorem spells_string (hkind : t.kind = .string) (hkeyword : t.keyword = none) :
    Spells lexicon (literal Byte.quote (t.text.map LiteralByte.quote) true) t where
  bytes := by
    have hspelling : t.spelling = Token.quoted t.text := by
      unfold Token.spelling
      rw [hkind]
    rw [hspelling,Tile.bytes,Token.quoted,List.flatMap_map]
    simp only [LiteralByte.bytes_quote,if_true]
  fits _ := by
    refine ⟨rfl,?_,by simp⟩
    intro u hu
    obtain ⟨b,-,rfl⟩ := List.mem_map.mp hu
    exact LiteralByte.fits_quote b
  token p := by
    refine ⟨_,rfl,?_⟩
    have hvalues : (t.text.map LiteralByte.quote).map LiteralByte.value = t.text := by
      rw [List.map_map]
      exact List.map_id'' (fun b => LiteralByte.value_quote b) _
    simp only [Token.spelled,hvalues,hkind,hkeyword]
  last := by
    rw [Tile.bytes,if_pos rfl,← List.cons_append]
    exact isBlank_last List.getLast?_concat rfl

theorem spells_bare (hkind : ∀ p, tile.token? lexicon p = some (.bare t.kind p)) (hkeyword : t.keyword = none)
    (htext : t.text = []) (hbytes : tile.bytes = t.spelling) (hfits : ∀ {rest}, StartsBlank rest → tile.Fits rest)
    (hlast : ∀ b ∈ tile.bytes.getLast?, Byte.isBlank b = false) : Spells lexicon tile t where
  bytes := hbytes
  fits := hfits
  token p := ⟨_,hkind p,by simp [Token.spelled,Token.bare,hkeyword,htext]⟩
  last := hlast

theorem spells_punctuation {b : UInt8} (hb : t.kind.byte? = some b) (hspelling : t.spelling = t.kind.byte?.toList)
    (hkeyword : t.keyword = none) (htext : t.text = []) : Spells lexicon (punctuation b t.kind) t := by
  have hkind := TokenKind.ofByte?_of_byte? hb
  refine spells_bare (fun p => rfl) hkeyword htext ?_ (fun _ => hkind) ?_
  · rw [hspelling,hb]
    rfl
  · exact isBlank_last rfl (isBlank_punctuation hkind).1

/-- Every printable token but a terminator is spelled by a tile. -/
theorem exists_spells (h : t.IsPrintable lexicon) (ht : t.kind ≠ .terminator) : ∃ tile, Spells lexicon tile t := by
  obtain ⟨kind,keyword,text,pos⟩ := t
  cases kind with
  | absent | character | doubleColon => exact h.elim
  | terminator => exact absurd rfl ht
  | identifier =>
    obtain ⟨htext,hfind,hkeyword⟩ := h
    refine spells_word htext rfl ?_
    dsimp only at hfind hkeyword ⊢
    rw [hfind,Token.spelled,hkeyword]
    rfl
  | keyword =>
    obtain ⟨htext,hfind,hkeyword⟩ := h
    refine spells_word htext rfl ?_
    dsimp only at hfind hkeyword ⊢
    rw [hfind,if_pos (Option.isSome_iff_ne_none.mpr hkeyword)]
    rfl
  | string => exact ⟨_,spells_string rfl h⟩
  | forwardSlash =>
    refine ⟨slash,spells_bare (fun _ => rfl) h.1 h.2 rfl ?_ (isBlank_last rfl rfl)⟩
    intro rest hrest b hb
    exact (isWord_blank (hrest b hb)).2
  | leftArrow => exact ⟨arrow,spells_bare (fun _ => rfl) h.1 h.2 rfl (fun _ => trivial) (isBlank_last rfl rfl)⟩
  | openParen | closeParen | openCurly | closeCurly | openSquare | closeSquare | star | sigil | ampersand | dot
  | comma => exact ⟨_,spells_punctuation rfl rfl h.1 h.2⟩

/-- Whether a newline after the tokens is a terminator, if `ends` says so for one before them. -/
def endsStatement (ends : Bool) (ts : List Token) : Bool := (ts.getLast?.map fun t => t.kind.mayEndStatement).getD ends

theorem endsStatement_cons (ends : Bool) (t : Token) (ts : List Token) :
    endsStatement ends (t :: ts) = endsStatement t.kind.mayEndStatement ts := by
  unfold endsStatement
  rw [List.getLast?_cons]
  cases ts.getLast? <;> rfl

/-- The row is read as the tokens, whatever comes after it that starts with a blank. -/
structure ReadAs (lexicon : Lexicon) (ts : List Token) (row : List Tile) : Prop where
  tiled : ∀ {more}, Tiled more → StartsBlank (spell more) → Tiled (row ++ more) ∧ StartsBlank (spell (row ++ more))
  tokens : ∀ (ends p more), (∀ t ∈ ts.head?, t.kind = .terminator → ends = true) → Settled ts →
    ∃ us q, us.map Token.spelled = ts.map Token.spelled ∧
      tokens lexicon ends p (row ++ more) = us ++ tokens lexicon (endsStatement ends ts) q more

theorem readAs_nil : ReadAs lexicon [] [] where
  tiled hm hb := ⟨hm,hb⟩
  tokens _ p _ _ _ := ⟨[],p,rfl,rfl⟩

theorem ReadAs.cons {ts : List Token} {piece row : List Tile} (hpiece : ReadAs lexicon [t] piece)
    (hrow : ReadAs lexicon ts row) : ReadAs lexicon (t :: ts) (piece ++ row) where
  tiled hm hb := by
    obtain ⟨htiled,hblank⟩ := hrow.tiled hm hb
    rw [List.append_assoc]
    exact hpiece.tiled htiled hblank
  tokens ends p more hends hs := by
    obtain ⟨hnext,hsettled⟩ := List.isChain_cons.mp hs
    obtain ⟨us,q,hus,hread⟩ := hpiece.tokens ends p (row ++ more) hends (List.isChain_singleton t)
    obtain ⟨vs,r,hvs,hread'⟩ := hrow.tokens t.kind.mayEndStatement q more hnext hsettled
    refine ⟨us ++ vs,r,?_,?_⟩
    · rw [List.map_append,hus,hvs]
      rfl
    · have hone : endsStatement ends [t] = t.kind.mayEndStatement := rfl
      rw [List.append_assoc,hread,hone,hread',endsStatement_cons,List.append_assoc]

theorem startsBlank_cons {b : UInt8} (hb : Byte.isBlank b = true) : StartsBlank (b :: bytes) := by
  intro x hx
  obtain rfl := Option.some.inj hx
  exact hb

theorem ReadAs.space {ts : List Token} {row : List Tile} (h : ReadAs lexicon ts row) :
    ReadAs lexicon ts (blank Byte.space :: row) where
  tiled hm hb := ⟨⟨rfl,(h.tiled hm hb).1⟩,startsBlank_cons rfl⟩
  tokens ends p more hends hs := by
    have hquiet : (ends && (blank Byte.space).breaksLine) = false := Bool.and_false ends
    rw [List.cons_append,tokens_trivia rfl hquiet]
    exact h.tokens ends _ more hends hs

theorem readAs_newline (ht : t.spelled = (.terminator,none,[])) : ReadAs lexicon [t] [blank Byte.newline] where
  tiled hm _ := ⟨⟨rfl,hm⟩,startsBlank_cons rfl⟩
  tokens ends p more hends _ := by
    have hkind : t.kind = .terminator := congrArg Prod.fst ht
    obtain rfl := hends t rfl hkind
    have hends : endsStatement true [t] = false := by
      change t.kind.mayEndStatement = false
      rw [hkind]
      rfl
    refine ⟨[.bare .terminator p],p.past Byte.newline,?_,?_⟩
    · rw [List.map_singleton,List.map_singleton,ht]
      rfl
    · rw [List.singleton_append,hends,← Position.pastAll_singleton]
      exact tokens_break rfl rfl

theorem Spells.readAs (h : Spells lexicon tile t) : ReadAs lexicon [t] [blank Byte.space,tile] where
  tiled hm hb := ⟨⟨rfl,h.fits hb,hm⟩,startsBlank_cons rfl⟩
  tokens ends p more _ _ := by
    have hquiet : (ends && (blank Byte.space).breaksLine) = false := Bool.and_false ends
    obtain ⟨u,hu,hspelled⟩ := h.token (p.pastAll (blank Byte.space).bytes)
    have hkind : u.kind = t.kind := congrArg Prod.fst hspelled
    refine ⟨[u],(p.pastAll (blank Byte.space).bytes).pastAll tile.bytes,congrArg (fun x => [x]) hspelled,?_⟩
    rw [List.cons_append,tokens_trivia rfl hquiet,List.singleton_append,tokens_token hu,hkind]
    rfl

theorem exists_readAs_token (spaced : Bool) (h : t.IsPrintable lexicon) :
    ∃ piece, spell piece = t.printed spaced ∧ ReadAs lexicon [t] piece := by
  by_cases ht : t.kind = .terminator
  · have hread : ReadAs lexicon [t] [blank Byte.newline] := readAs_newline (h.spelled_terminator ht)
    cases spaced with
    | false =>
      refine ⟨_,?_,hread⟩
      rw [Token.printed,if_pos ⟨ht,rfl⟩,Token.spelling_terminator ht]
      rfl
    | true =>
      refine ⟨_,?_,hread.space⟩
      rw [Token.printed,if_neg (by simp),Token.spelling_terminator ht]
      rfl
  · obtain ⟨tile,htile⟩ := exists_spells h ht
    refine ⟨_,?_,htile.readAs⟩
    rw [Token.printed,if_neg fun hk => ht hk.1,← htile.bytes,spell_cons,spell_cons,spell_nil,List.append_nil]
    rfl

theorem exists_readAs (spaced : Bool) {ts : List Token} (h : ∀ t ∈ ts, t.IsPrintable lexicon) :
    ∃ row, spell row = printTokens spaced ts ∧ ReadAs lexicon ts row := by
  induction ts with
  | nil => exact ⟨[],rfl,readAs_nil⟩
  | cons t ts ih =>
    obtain ⟨ht,hts⟩ := List.forall_mem_cons.mp h
    obtain ⟨piece,hspell,hpiece⟩ := exists_readAs_token spaced ht
    obtain ⟨row,hspell',hrow⟩ := ih hts
    refine ⟨piece ++ row,?_,hpiece.cons hrow⟩
    rw [spell_append,hspell,hspell']
    rfl

theorem isPrintable_ofWord {text : List UInt8} (h : IsWordText text) (p : Position) :
    (Token.ofWord lexicon text p).IsPrintable lexicon := by
  unfold Token.ofWord
  cases hfind : lexicon.find? text with
  | none => exact ⟨h,hfind,rfl⟩
  | some k => exact ⟨h,hfind,Option.some_ne_none k⟩

theorem isPrintable_ofByte? {b : UInt8} {kind : TokenKind} (h : TokenKind.ofByte? b = some kind) (p : Position) :
    (Token.bare kind p).IsPrintable lexicon := by
  have hb := TokenKind.byte?_of_ofByte? h
  cases kind with
  | absent | character | keyword | identifier | string | doubleColon => contradiction
  | _ => exact ⟨rfl,rfl⟩

theorem isPrintable_of_token? {tile : Tile} {rest : List UInt8} {p : Position} (h : tile.Fits rest)
    (ht : tile.token? lexicon p = some t) : t.IsPrintable lexicon := by
  cases tile with
  | blank | lineComment | blockComment | dropped => contradiction
  | word first more =>
    obtain ⟨hfirst,hmore,-⟩ := h
    obtain rfl := Option.some.inj ht
    have htext : IsWordText (first :: more) := ⟨hfirst,hmore⟩
    exact isPrintable_ofWord htext p
  | literal delimiter body closed =>
    obtain rfl := Option.some.inj ht
    exact rfl
  | punctuation b kind =>
    obtain rfl := Option.some.inj ht
    exact isPrintable_ofByte? h p
  | slash | arrow =>
    obtain rfl := Option.some.inj ht
    exact ⟨rfl,rfl⟩

theorem isPrintable_tokens {tiles : List Tile} {ends : Bool} {p : Position} (h : Tiled tiles)
    (ht : t ∈ Tile.tokens lexicon ends p tiles) : t.IsPrintable lexicon := by
  induction tiles generalizing ends p with
  | nil => contradiction
  | cons tile tiles ih =>
    obtain ⟨hfit,htiles⟩ := h
    cases hu : tile.token? lexicon p with
    | some u =>
      rw [tokens_token hu] at ht
      rcases List.mem_cons.mp ht with rfl | ht
      · exact isPrintable_of_token? hfit hu
      · exact ih htiles ht
    | none =>
      cases hb : ends && tile.breaksLine with
      | false =>
        rw [tokens_trivia hu hb] at ht
        exact ih htiles ht
      | true =>
        obtain ⟨rfl,hbreak⟩ := Bool.and_eq_true_iff.mp hb
        rw [tokens_break hu hbreak] at ht
        rcases List.mem_cons.mp ht with rfl | ht
        · exact ⟨rfl,rfl⟩
        · exact ih htiles ht

end Tile
open Tile

section Print

variable {lexicon : Lexicon} {spaced : Bool} {t : Token} {ts : List Token}

theorem printTokens_concat (spaced : Bool) (ts : List Token) (t : Token) :
    printTokens spaced (ts ++ [t]) = printTokens spaced ts ++ t.printed spaced := by
  simp [printTokens]

theorem getLast?_printed (spaced : Bool) (h : t.IsPrintable lexicon) :
    ∃ b, (t.printed spaced).getLast? = some b ∧ (b != Byte.newline) = (t.kind != .terminator) := by
  by_cases ht : t.kind = .terminator
  · refine ⟨Byte.newline,?_,by rw [ht]; rfl⟩
    unfold Token.printed
    rw [Token.spelling_terminator ht]
    split <;> rfl
  · obtain ⟨tile,htile⟩ := exists_spells h ht
    obtain ⟨init,b,hb⟩ := (List.eq_nil_or_concat tile.bytes).resolve_left tile.bytes_ne_nil
    rw [List.concat_eq_append] at hb
    have hblank : Byte.isBlank b = false := by
      apply htile.last
      rw [hb,List.getLast?_concat]
      rfl
    refine ⟨b,?_,?_⟩
    · rw [Token.printed,if_neg fun hk => ht hk.1,← htile.bytes,hb,← List.cons_append,List.getLast?_concat]
    · rw [bne_iff_ne.mpr ht,bne_iff_ne]
      rintro rfl
      contradiction

/-- The newline that the printed tokens lack unless a terminator comes last. -/
def owedNewline (ts : List Token) : List UInt8 :=
  if ts.getLast?.any (·.kind != .terminator) then [Byte.newline] else []

theorem content_printTokens (spaced : Bool) (h : ∀ t ∈ ts, t.IsPrintable lexicon) :
    (SourceFile.mk (printTokens spaced ts)).start = 0 ∧
    (SourceFile.mk (printTokens spaced ts)).content = printTokens spaced ts ++ owedNewline ts := by
  have hmark : (SourceFile.mk (printTokens spaced ts)).hasMark = false := by
    obtain ⟨row,hspell,hrow⟩ := exists_readAs spaced h
    have hnone : StartsBlank (spell []) := by simp [StartsBlank]
    have htiled : Tiled [] := trivial
    obtain ⟨-,hblank⟩ := hrow.tiled htiled hnone
    rw [List.append_nil,hspell] at hblank
    rw [Bool.eq_false_iff,ne_eq,SourceFile.hasMark_iff]
    rintro ⟨rest,hrest⟩
    have hhead := hblank 0xEF (by rw [← show _ = printTokens spaced ts from hrest]; rfl)
    contradiction
  have hbody : (SourceFile.mk (printTokens spaced ts)).body = printTokens spaced ts := SourceFile.body_of_no_mark hmark
  constructor
  · rw [SourceFile.start,hmark]
    rfl
  · rcases List.eq_nil_or_concat ts with rfl | ⟨init,t,rfl⟩
    · rfl
    · rw [List.concat_eq_append] at h hbody ⊢
      obtain ⟨b,hb,hnewline⟩ := getLast?_printed spaced (h t (by simp))
      have hlast : (printTokens spaced (init ++ [t])).getLast? = some b := by
        rw [printTokens_concat,List.getLast?_append,hb]
        rfl
      have hlacks : (SourceFile.mk (printTokens spaced (init ++ [t]))).lacksNewline = (t.kind != .terminator) := by
        rw [SourceFile.lacksNewline,hbody,hlast,← hnewline]
        cases hbytes : printTokens spaced (init ++ [t]) with
        | nil => rw [hbytes] at hlast; contradiction
        | cons => rfl
      have howed : owedNewline (init ++ [t]) = if t.kind != .terminator then [Byte.newline] else [] := by
        rw [owedNewline,List.getLast?_concat]
        rfl
      rw [SourceFile.content,hlacks,hbody,howed]
      split
      · rfl
      · rw [List.append_nil]

theorem spelled_owedNewline (ts : List Token) (p : Position) :
    (Tile.tokens lexicon (endsStatement false ts) p ((owedNewline ts).map blank)).map Token.spelled =
      if ts.getLast?.any (·.kind.mayEndStatement) then [(.terminator,none,[])] else [] := by
  unfold endsStatement owedNewline
  cases ts.getLast? with
  | none => rfl
  | some t =>
    obtain ⟨kind,-,-,-⟩ := t
    cases kind <;> rfl

theorem tiled_owedNewline (ts : List Token) :
    Tiled ((owedNewline ts).map blank) ∧ StartsBlank (spell ((owedNewline ts).map blank)) ∧
      spell ((owedNewline ts).map blank) = owedNewline ts := by
  unfold owedNewline
  split
  · exact ⟨⟨rfl,trivial⟩,startsBlank_cons rfl,rfl⟩
  · exact ⟨trivial,by simp [StartsBlank],rfl⟩

theorem SourceFile.printable_tokens (lexicon : Lexicon) (f : SourceFile) : Printable lexicon (f.tokens lexicon) := by
  obtain ⟨tiles,htiled,hspell⟩ := exists_tiles f.endsLine_content
  refine ⟨?_,?_,f.settled_tokens lexicon⟩
  · intro t ht
    rw [tokens_tiles htiled hspell] at ht
    exact isPrintable_tokens htiled ht
  · intro t ht
    rw [tokens_tiles htiled hspell] at ht
    exact kind_of_head?_tokens htiled (.inl rfl) ht

/-- A printed list is read as the tokens of the list, and as one terminator more if a newline is owed that is one. -/
theorem spelled_printTokens (h : Printable lexicon ts) (spaced : Bool) :
    ((SourceFile.mk (printTokens spaced ts)).tokens lexicon).map Token.spelled =
      ts.map Token.spelled ++
        if ts.getLast?.any (·.kind.mayEndStatement) then [(.terminator,none,[])] else [] := by
  obtain ⟨heach,hfirst,hsettled⟩ := h
  obtain ⟨row,hspell,hrow⟩ := exists_readAs spaced heach
  obtain ⟨hstart,hcontent⟩ := content_printTokens spaced heach
  obtain ⟨howed,hblank,hspell'⟩ := tiled_owedNewline ts
  obtain ⟨htiled,-⟩ := hrow.tiled howed hblank
  rw [← hspell,← hspell',← spell_append] at hcontent
  have hends : ∀ t ∈ ts.head?, t.kind = .terminator → false = true := by
    intro t ht hk
    exact absurd hk (hfirst t ht)
  obtain ⟨us,q,hus,hread⟩ := hrow.tokens false ⟨1,0⟩ ((owedNewline ts).map blank) hends hsettled
  rw [SourceFile.tokens_tiles htiled (hspell ▸ hcontent.symm),← hspell]
  rw [← hspell] at hstart
  rw [hstart,hread,List.map_append,hus,spelled_owedNewline]

end Print

/-- The tokens of a printed list, whatever stands in its strings, are the tokens of the list in kind, keyword and
text. After them comes one terminator if the last of them may end a statement, and nothing otherwise. It makes no
difference whether a space stands before the newline of a terminator. And what is read from any file can be printed
so: these are the lists of tokens that files have. -/
theorem tokens_printTokens (lexicon : Lexicon) :
    (∀ ts, Printable lexicon ts → ∀ spaced,
      (tokens (Scanner.ofSource (SourceFile.reader ⟨printTokens spaced ts⟩) lexicon)).map Token.spelled =
        ts.map Token.spelled ++
          if ts.getLast?.any (·.kind.mayEndStatement) then [(.terminator,none,[])] else []) ∧
    ∀ f : SourceFile, Printable lexicon (tokens (Scanner.ofSource f.reader lexicon)) := by
  constructor
  · intro ts h spaced
    rw [SourceFile.tokens_reader]
    exact spelled_printTokens h spaced
  · intro f
    rw [SourceFile.tokens_reader]
    exact f.printable_tokens lexicon

def spelledSample : List Token :=
  [⟨.keyword,some .kwLet,Utf8.encode "let",⟨0,0⟩⟩,⟨.identifier,none,Utf8.encode "!a",⟨0,0⟩⟩,.bare .terminator ⟨0,0⟩,
    ⟨.string,none,Utf8.encode "\" \\\n/* ",⟨0,0⟩⟩,.bare .terminator ⟨0,0⟩,.bare .forwardSlash ⟨0,0⟩,.bare .star ⟨0,0⟩,
    .bare .leftArrow ⟨0,0⟩,.bare .closeParen ⟨0,0⟩]

theorem tokens_printTokens_sample :
    Printable .standard spelledSample ∧
    printTokens false spelledSample = Utf8.encode " let !a\n \"\\\" \\\\\n/* \"\n / * <- )" ∧
    (tokens (Scanner.ofSource (SourceFile.reader ⟨printTokens false spelledSample⟩) .standard)).map Token.spelled =
      spelledSample.map Token.spelled ++ [(.terminator,none,[])] := by
  have hsample : Printable .standard spelledSample := by
    refine ⟨?_,by decide,?_⟩
    · simp only [spelledSample,List.forall_mem_cons,List.not_mem_nil,false_implies,implies_true,Token.IsPrintable,
        Token.bare]
      decide +kernel
    · unfold Settled
      decide
  exact ⟨hsample,by decide +kernel,(tokens_printTokens .standard).1 spelledSample hsample false⟩

end SourceTags
