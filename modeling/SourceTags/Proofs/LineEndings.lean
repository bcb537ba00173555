import SourceTags.Proofs.CarriageReturns
import SourceTags.Proofs.Concatenation
import SourceTags.Proofs.ReportedNames
import SourceTags.Proofs.Terminators

/-! # Carriage returns in a source

A source that has a carriage return put before each newline has the same tokens on the same lines, and only the
texts of strings have the carriage returns too. For a return is one more blank between tokens and one more byte of
a comment or of a string, and a word, a slash or a backslash before a newline may as well stand before a return.
Only after a less-than sign it would be dropped in place of the newline.
-/
namespace SourceTags
open TokenStream

namespace LiteralByte

/-- A byte that is a newline becomes two, of which the first is escaped if it was. -/
def withReturns (u : LiteralByte) : List LiteralByte :=
  if u.value = Byte.newline then
    match u with
    | plain _ => [plain Byte.carriageReturn,plain Byte.newline]
    | escaped _ => [escaped Byte.carriageReturn,plain Byte.newline]
  else [u]

theorem bytes_withReturns (u : LiteralByte) :
    u.withReturns.flatMap bytes = Byte.withReturns u.bytes := by
  cases u with
  | plain b =>
    by_cases h : b = Byte.newline
    · subst h
      rfl
    · simp [withReturns,value,h,bytes,Byte.withReturns,putBefore_cons_of_ne]
  | escaped b =>
    have hs : Byte.backslash ≠ Byte.newline := by decide
    by_cases h : b = Byte.newline
    · subst h
      rfl
    · simp [withReturns,value,h,bytes,Byte.withReturns,putBefore_cons_of_ne,hs]

theorem values_withReturns (u : LiteralByte) :
    u.withReturns.map value = Byte.withReturns [u.value] := by
  unfold withReturns Byte.withReturns
  split
  · next h =>
    rw [h,putBefore_cons_self]
    cases u <;> rfl
  · next h =>
    rw [putBefore_cons_of_ne h]
    rfl

theorem fits_withReturns {u v : LiteralByte} {delimiter : UInt8} (hd : Byte.isDelimiter delimiter = true)
    (hu : u.Fits delimiter) (hv : v ∈ u.withReturns) : v.Fits delimiter := by
  have hplain : ∀ {b : UInt8}, Byte.isDelimiter b = false → b ≠ Byte.backslash → (plain b).Fits delimiter := by
    intro b hb hs
    refine ⟨?_,fun hb' => absurd hb' hs⟩
    rintro rfl
    rw [hd] at hb
    contradiction
  unfold withReturns at hv
  split at hv
  · cases u with
    | plain b =>
      rcases List.mem_pair.mp hv with rfl | rfl
      · exact hplain rfl (by decide)
      · exact hplain rfl (by decide)
    | escaped b =>
      rcases List.mem_pair.mp hv with rfl | rfl
      · exact hu
      · exact hplain rfl (by decide)
  · exact List.mem_singleton.mp hv ▸ hu

end LiteralByte

namespace Byte

variable {bytes rest : List UInt8} {b : UInt8}

theorem withReturns_append : withReturns (bytes ++ rest) = withReturns bytes ++ withReturns rest := putBefore_append

theorem withReturns_of_not_mem (h : newline ∉ bytes) : withReturns bytes = bytes := putBefore_of_not_mem h

/-- Carriage returns come between no star and a slash. -/
theorem no_closer_withReturns (h : ¬Tile.closer <:+: bytes) : ¬Tile.closer <:+: withReturns bytes := by
  unfold withReturns
  induction bytes with
  | nil => exact h
  | cons b bytes ih =>
    have hrest := ih fun hi => h (List.infix_cons hi)
    intro hi
    by_cases hb : b = newline
    · subst hb
      rw [putBefore_cons_self,List.infix_cons_iff,List.infix_cons_iff] at hi
      rcases hi with hp | hp | hi
      · exact absurd (List.cons_prefix_cons.mp hp).1 (by decide)
      · exact absurd (List.cons_prefix_cons.mp hp).1 (by decide)
      · exact hrest hi
    · rw [putBefore_cons_of_ne hb,List.infix_cons_iff] at hi
      rcases hi with hp | hi
      · obtain ⟨rfl,hs⟩ := List.cons_prefix_cons.mp hp
        have hhead : slash ∈ bytes.head? := by
          obtain ⟨more,hmore⟩ := hs
          refine (head?_putBefore (r := carriageReturn) (n := newline) ?_).resolve_right (by decide)
          rw [← hmore]
          rfl
        obtain ⟨more,rfl⟩ := List.head?_eq_some_iff.mp hhead
        exact h ⟨[],more,rfl⟩
      · exact hrest hi

end Byte

theorem EndsLine.withReturns {bytes : List UInt8} (h : EndsLine bytes) : EndsLine (Byte.withReturns bytes) := by
  rcases List.eq_nil_or_concat bytes with rfl | ⟨init,b,rfl⟩
  · exact h
  · rw [List.concat_eq_append] at h ⊢
    obtain rfl := h b (by simp)
    intro x hx
    rw [Byte.withReturns_append,List.getLast?_append] at hx
    exact (Option.some.inj hx).symm

namespace Tile

variable {t : Tile} {tiles more : List Tile} {rest : List UInt8} {lexicon : Lexicon}

/-- The tiles in place of a tile. -/
def withReturns : Tile → List Tile
  | blank b => if b = Byte.newline then [blank Byte.carriageReturn,blank Byte.newline] else [blank b]
  | lineComment text => [lineComment (text ++ [Byte.carriageReturn])]
  | blockComment text closed => [blockComment (Byte.withReturns text) closed]
  | literal delimiter body closed => [literal delimiter (body.flatMap LiteralByte.withReturns) closed]
  | t => [t]

theorem newline_not_mem_word {first : UInt8} {more : List UInt8} (h : (word first more).Fits rest) :
    Byte.newline ∉ first :: more := by
  obtain ⟨⟨hfirst,-⟩,hmore,-⟩ := h
  intro hm
  rcases List.mem_cons.mp hm with rfl | hm
  · contradiction
  · exact absurd (hmore _ hm) (by decide)

theorem bodyBytes_withReturns (body : List LiteralByte) :
    (body.flatMap LiteralByte.withReturns).flatMap LiteralByte.bytes =
      Byte.withReturns (body.flatMap LiteralByte.bytes) := by
  induction body with
  | nil => rfl
  | cons u body ih =>
    rw [List.flatMap_cons,List.flatMap_append,List.flatMap_cons,Byte.withReturns_append,u.bytes_withReturns,ih]

theorem values_withReturns (body : List LiteralByte) :
    (body.flatMap LiteralByte.withReturns).map LiteralByte.value = Byte.withReturns (body.map LiteralByte.value) := by
  induction body with
  | nil => rfl
  | cons u body ih =>
    rw [List.flatMap_cons,List.map_append,List.map_cons,u.values_withReturns,ih,← Byte.withReturns_append]
    rfl

theorem spell_withReturns (h : t.Fits rest) (ht : t ≠ dropped Byte.newline) :
    spell t.withReturns = Byte.withReturns t.bytes := by
  have hs : ∀ {b : UInt8} {more}, b ≠ Byte.newline → Byte.withReturns (b :: more) = b :: Byte.withReturns more :=
    fun hb => putBefore_cons_of_ne hb
  cases t with
  | blank b =>
    by_cases hb : b = Byte.newline
    · subst hb
      rfl
    · simp [withReturns,hb,bytes,Byte.withReturns_of_not_mem,Ne.symm hb]
  | lineComment text =>
    have htext : Byte.withReturns text = text := Byte.withReturns_of_not_mem h
    rw [bytes,hs (by decide),hs (by decide),Byte.withReturns_append,htext]
    simp [withReturns,bytes,Byte.withReturns,putBefore_cons_self]
  | blockComment text closed =>
    have hend : Byte.withReturns (if closed then closer else []) = if closed then closer else [] := by
      cases closed <;> rfl
    change _ = Byte.withReturns (Byte.slash :: Byte.star :: (text ++ if closed then closer else []))
    rw [hs (by decide),hs (by decide),Byte.withReturns_append,hend]
    simp [withReturns,bytes,closer]
  | dropped b =>
    have hb : b ≠ Byte.newline := fun hb => ht (hb ▸ rfl)
    rw [bytes,hs (by decide),hs hb]
    rfl
  | word first more => simp [withReturns,bytes,Byte.withReturns_of_not_mem (newline_not_mem_word h)]
  | literal delimiter body closed =>
    obtain ⟨hd,-⟩ := h
    have hne : delimiter ≠ Byte.newline := by
      rintro rfl
      contradiction
    have hend : Byte.withReturns (if closed then [delimiter] else []) = if closed then [delimiter] else [] := by
      cases closed with
      | false => rfl
      | true => exact hs hne
    rw [bytes,hs hne,Byte.withReturns_append,← bodyBytes_withReturns,hend]
    simp [withReturns,bytes]
  | punctuation b kind =>
    have hne : b ≠ Byte.newline := by
      rintro rfl
      have hblank := (isBlank_punctuation h).1
      contradiction
    rw [bytes,hs hne]
    rfl
  | slash | arrow => rfl

theorem tiled_withReturns (h : t.Fits rest) (hm : Tiled more) (hr : spell more = Byte.withReturns rest) :
    Tiled (t.withReturns ++ more) := by
  have hhead : ∀ {b : UInt8}, b ∈ (spell more).head? → b ∈ rest.head? ∨ b = Byte.carriageReturn := by
    rw [hr]
    exact head?_putBefore
  have hnil : rest = [] → spell more = [] := by
    rintro rfl
    exact hr
  cases t with
  | blank b =>
    by_cases hb : b = Byte.newline
    · subst hb
      exact ⟨rfl,rfl,hm⟩
    · rw [withReturns,if_neg hb]
      exact ⟨h,hm⟩
  | lineComment text =>
    refine ⟨?_,hm⟩
    intro hmem
    rcases List.mem_append.mp hmem with hmem | hmem
    · exact h hmem
    · exact absurd (List.mem_singleton.mp hmem) (by decide)
  | blockComment text closed =>
    refine ⟨?_,hm⟩
    cases closed with
    | true =>
      have hstar : Byte.withReturns text ++ [Byte.star] = Byte.withReturns (text ++ [Byte.star]) := by
        rw [Byte.withReturns_append]
        rfl
      change ¬closer <:+: Byte.withReturns text ++ [Byte.star]
      rw [hstar]
      exact Byte.no_closer_withReturns h
    | false => exact ⟨Byte.no_closer_withReturns h.1,hnil h.2⟩
  | dropped b => exact ⟨h,hm⟩
  | word first more' =>
    obtain ⟨hfirst,hword,hrest⟩ := h
    refine ⟨⟨hfirst,hword,?_⟩,hm⟩
    intro b hb
    rcases hhead hb with hb | rfl
    · exact hrest b hb
    · rfl
  | literal delimiter body closed =>
    obtain ⟨hd,hbody,hrest⟩ := h
    refine ⟨⟨hd,?_,fun hc => hnil (hrest hc)⟩,hm⟩
    intro v hv
    obtain ⟨u,hu,hv⟩ := List.mem_flatMap.mp hv
    exact LiteralByte.fits_withReturns hd (hbody u hu) hv
  | punctuation b kind => exact ⟨h,hm⟩
  | slash =>
    refine ⟨?_,hm⟩
    intro b hb
    rcases hhead hb with hb | rfl
    · exact h b hb
    · decide
  | arrow => exact ⟨h,hm⟩

theorem Tiled.withReturns (h : Tiled tiles) (hd : dropped Byte.newline ∉ tiles) :
    spell (tiles.flatMap Tile.withReturns) = Byte.withReturns (spell tiles) ∧
      Tiled (tiles.flatMap Tile.withReturns) := by
  induction tiles with
  | nil => exact ⟨rfl,trivial⟩
  | cons t tiles ih =>
    obtain ⟨hfit,htiles⟩ := h
    rw [List.mem_cons,not_or] at hd
    obtain ⟨hspell,htiled⟩ := ih htiles hd.2
    rw [List.flatMap_cons]
    refine ⟨?_,tiled_withReturns hfit htiled hspell⟩
    rw [spell_append,spell_withReturns hfit (Ne.symm hd.1),hspell,spell_cons,Byte.withReturns_append]

end Tile

/-- The second token is what becomes of the first: the same in all but its offset, and a carriage return stands
before each newline of a string. -/
structure Token.Returns (t t' : Token) : Prop where
  kind : t.kind = t'.kind
  keyword : t.keyword = t'.keyword
  text : t'.text = Byte.withReturns t.text
  same : t.kind ≠ .string → t'.text = t.text
  line : t.pos.line = t'.pos.line

namespace Token

variable {p q : Position}

theorem returns_bare (kind : TokenKind) (h : p.line = q.line) : (bare kind p).Returns (bare kind q) :=
  ⟨rfl,rfl,rfl,fun _ => rfl,h⟩

theorem returns_ofWord {text : List UInt8} (ht : Byte.newline ∉ text) (h : p.line = q.line) (lexicon : Lexicon) :
    (ofWord lexicon text p).Returns (ofWord lexicon text q) := by
  have htext := (Byte.withReturns_of_not_mem ht).symm
  unfold ofWord
  split <;> exact ⟨rfl,rfl,htext,fun _ => rfl,h⟩

end Token

theorem Position.line_withReturns {p q : Position} (h : p.line = q.line) (bytes : List UInt8) :
    (p.pastAll bytes).line = (q.pastAll (Byte.withReturns bytes)).line := by
  unfold pastAll Byte.withReturns
  rw [count_putBefore_self (by decide),h]

theorem Position.line_dropLast_withReturns {p q : Position} (h : p.line = q.line) (bytes : List UInt8) :
    (p.pastAll bytes.dropLast).line = (q.pastAll (Byte.withReturns bytes).dropLast).line := by
  unfold pastAll Byte.withReturns
  rw [count_dropLast_putBefore (by decide),h]

namespace Tile

variable {t : Tile} {tiles more : List Tile} {rest : List UInt8} {lexicon : Lexicon} {ends : Bool} {p q : Position}

theorem token?_withReturns {u : Token} (h : t.Fits rest) (hu : t.token? lexicon p = some u) (hp : p.line = q.line) :
    ∃ t' u', t.withReturns = [t'] ∧ t'.token? lexicon q = some u' ∧ u.Returns u' := by
  cases t with
  | blank | lineComment | blockComment | dropped => contradiction
  | word first more =>
    obtain rfl := Option.some.inj hu
    exact ⟨_,_,rfl,rfl,Token.returns_ofWord (newline_not_mem_word h) hp lexicon⟩
  | literal delimiter body closed =>
    obtain rfl := Option.some.inj hu
    exact ⟨_,_,rfl,rfl,rfl,rfl,values_withReturns body,fun hk => absurd rfl hk,hp⟩
  | punctuation | slash | arrow =>
    obtain rfl := Option.some.inj hu
    exact ⟨_,_,rfl,rfl,Token.returns_bare _ hp⟩

theorem trivia_withReturns (ht : t.isTrivia = true) :
    t = blank Byte.newline ∨
      ∃ t', t.withReturns = [t'] ∧ t'.isTrivia = true ∧ t'.breaksLine = t.breaksLine := by
  cases t with
  | blank b =>
    by_cases hb : b = Byte.newline
    · exact .inl (hb ▸ rfl)
    · exact .inr ⟨_,if_neg hb,rfl,rfl⟩
  | lineComment | dropped => exact .inr ⟨_,rfl,rfl,rfl⟩
  | blockComment text closed =>
    refine .inr ⟨_,rfl,rfl,?_⟩
    rw [Bool.eq_iff_iff]
    simp only [breaksLine,List.contains_iff_mem]
    exact mem_putBefore_self
  | word | literal | punctuation | slash | arrow => contradiction

theorem tokens_withReturns_trivia (h : t.Fits rest) (ht : t.isTrivia = true) (hd : t ≠ dropped Byte.newline) :
    tokens lexicon ends p (t.withReturns ++ more) =
      if ends && t.breaksLine then
        .bare .terminator (p.pastAll (Byte.withReturns t.bytes).dropLast) ::
          tokens lexicon false (p.pastAll (Byte.withReturns t.bytes)) more
      else tokens lexicon ends (p.pastAll (Byte.withReturns t.bytes)) more := by
  rcases trivia_withReturns ht with rfl | ⟨t',ht',htrivia,hbreak⟩
  · change tokens lexicon ends p (blank Byte.carriageReturn :: blank Byte.newline :: more) = _
    have hquiet : (ends && (blank Byte.carriageReturn).breaksLine) = false := Bool.and_false ends
    have hboth : Byte.withReturns (blank Byte.newline).bytes =
        (blank Byte.carriageReturn).bytes ++ (blank Byte.newline).bytes := rfl
    rw [tokens_trivia rfl hquiet,hboth,Position.pastAll_append]
    cases ends with
    | false => exact tokens_trivia rfl rfl
    | true => exact tokens_break rfl rfl
  · have hbytes := spell_withReturns h hd
    rw [ht',spell_cons,spell_nil,List.append_nil] at hbytes
    rw [ht',List.singleton_append,tokens,token?_eq_none_iff.mpr htrivia,hbreak,hbytes]

/-- What becomes of the tiles has the tokens that become of theirs. -/
theorem tokens_withReturns (h : Tiled tiles) (hd : dropped Byte.newline ∉ tiles) (hp : p.line = q.line) :
    List.Forall₂ Token.Returns (tokens lexicon ends p tiles)
      (tokens lexicon ends q (tiles.flatMap withReturns)) := by
  induction tiles generalizing ends p q with
  | nil => exact .nil
  | cons t tiles ih =>
    obtain ⟨hfit,htiles⟩ := h
    rw [List.mem_cons,not_or] at hd
    have hne := Ne.symm hd.1
    have hline := Position.line_withReturns hp t.bytes
    rw [List.flatMap_cons]
    cases hu : t.token? lexicon p with
    | some u =>
      obtain ⟨t',u',ht',hu',hreturns⟩ := token?_withReturns hfit hu hp
      have hbytes := spell_withReturns hfit hne
      rw [ht',spell_cons,spell_nil,List.append_nil] at hbytes
      rw [ht',List.singleton_append,tokens_token hu,tokens_token hu',← hreturns.kind,hbytes]
      exact .cons hreturns (ih htiles hd.2 hline)
    | none =>
      rw [tokens_withReturns_trivia hfit (token?_eq_none_iff.mp hu) hne]
      cases hb : ends && t.breaksLine with
      | false =>
        rw [tokens_trivia hu hb,if_neg Bool.false_ne_true]
        exact ih htiles hd.2 hline
      | true =>
        obtain ⟨rfl,hbreak⟩ := Bool.and_eq_true_iff.mp hb
        rw [tokens_break hu hbreak,if_pos rfl]
        exact .cons (Token.returns_bare _ (Position.line_dropLast_withReturns hp t.bytes)) (ih htiles hd.2 hline)

end Tile

namespace SourceFile

variable {f : SourceFile}

/-- The file with a carriage return before each newline. -/
def withReturns (f : SourceFile) : SourceFile := ⟨Byte.withReturns f.bytes⟩

theorem hasMark_withReturns (f : SourceFile) : f.withReturns.hasMark = f.hasMark := by
  rw [Bool.eq_iff_iff,hasMark_iff,hasMark_iff]
  exact prefix_putBefore (by decide) (by decide)

theorem body_withReturns (f : SourceFile) : f.withReturns.body = Byte.withReturns f.body := by
  have hstart : f.withReturns.start = f.start := by rw [start,start,hasMark_withReturns]
  rw [body,body,hstart,start]
  cases hm : f.hasMark with
  | false => rfl
  | true =>
    obtain ⟨rest,hrest⟩ := (hasMark_iff f).mp hm
    have hmark : Byte.withReturns mark = mark := Byte.withReturns_of_not_mem (by decide)
    change (Byte.withReturns f.bytes).drop mark.length = Byte.withReturns (f.bytes.drop mark.length)
    rw [← hrest,Byte.withReturns_append,hmark,List.drop_left,List.drop_left]

theorem endsLine_body (h : EndsLine f.bytes) : EndsLine f.body := by
  rw [← List.take_append_drop f.start f.bytes] at h
  exact h.of_append

theorem content_of_endsLine (h : EndsLine f.body) : f.content = f.body := by
  have hlacks : f.lacksNewline = false := by
    unfold lacksNewline
    cases hb : f.body.getLast? with
    | none => simp [List.getLast?_eq_none_iff.mp hb]
    | some b => simp [h b hb]
  rw [content,hlacks]
  rfl

theorem content_withReturns (h : EndsLine f.bytes) : f.withReturns.content = Byte.withReturns f.content := by
  have hbody := endsLine_body h
  have hbody' : EndsLine f.withReturns.body := body_withReturns f ▸ hbody.withReturns
  rw [content_of_endsLine hbody,content_of_endsLine hbody',body_withReturns]

theorem dropped_newline_not_mem {tiles : List Tile} (h : ¬[Byte.less,Byte.newline] <:+: f.bytes)
    (hline : EndsLine f.bytes) (hf : Tile.spell tiles = f.content) : Tile.dropped Byte.newline ∉ tiles := by
  intro hmem
  obtain ⟨before,after,rfl⟩ := List.append_of_mem hmem
  have hbody : [Byte.less,Byte.newline] <:+: f.body := by
    rw [← content_of_endsLine (endsLine_body hline),← hf,Tile.spell_append,Tile.spell_cons]
    exact ⟨Tile.spell before,Tile.spell after,by simp [Tile.bytes]⟩
  exact h (hbody.trans (List.drop_suffix ..).isInfix)

end SourceFile

theorem SourceFile.tokens_withReturns {f : SourceFile} (hline : EndsLine f.bytes)
    (hless : ¬[Byte.less,Byte.newline] <:+: f.bytes) (lexicon : Lexicon) :
    List.Forall₂ Token.Returns (f.tokens lexicon) (f.withReturns.tokens lexicon) := by
  obtain ⟨tiles,htiled,hspell⟩ := exists_tiles f.endsLine_content
  have hdrop := dropped_newline_not_mem hless hline hspell
  obtain ⟨hspell',htiled'⟩ := htiled.withReturns hdrop
  rw [hspell,← content_withReturns hline] at hspell'
  rw [tokens_tiles htiled hspell,tokens_tiles htiled' hspell']
  exact Tile.tokens_withReturns htiled hdrop rfl

structure Tag.Returns (tag tag' : Tag) : Prop where
  name : tag'.name = Utf8.withReturns tag.name
  kind : tag.kind = tag'.kind
  line : tag.pos.line = tag'.pos.line

theorem Token.Returns.ofToken {t t' : Token} (h : t.Returns t') (kind : DeclarationKind) :
    (Tag.ofToken kind t).Returns (Tag.ofToken kind t') := by
  refine ⟨?_,rfl,h.line⟩
  change Utf8.decode t'.text = Utf8.withReturns (Utf8.decode t.text)
  rw [h.text,Utf8.decode_withReturns]

theorem TagSettings.forall₂_withQualified {R : Tag → Tag → Prop} (s : TagSettings) {tag tag' : Tag} (h : R tag tag')
    (hq : ∀ scope ∈ s.scope, R (tag.qualify scope) (tag'.qualify scope)) :
    List.Forall₂ R (s.withQualified tag) (s.withQualified tag') := by
  unfold withQualified
  cases hs : s.scope with
  | none => exact .cons h .nil
  | some scope =>
    dsimp only
    split
    · exact .cons h (.cons (hq scope hs) .nil)
    · exact .cons h .nil

theorem Tag.Returns.qualify {tag tag' : Tag} (h : tag.Returns tag') {scope : String} (hs : '\n' ∉ scope.toList) :
    (tag.qualify scope).Returns (tag'.qualify scope) := by
  refine ⟨?_,h.kind,h.line⟩
  have hdot : Utf8.withReturns "." = "." := rfl
  change scope ++ "." ++ tag'.name = Utf8.withReturns (scope ++ "." ++ tag.name)
  rw [Utf8.withReturns_append,Utf8.withReturns_append,Utf8.withReturns_of_not_mem hs,hdot,h.name]

theorem tagTokens_returns {ts us : List Token} (h : List.Forall₂ Token.Returns ts us) (settings : TagSettings)
    (given : Array Tag) :
    ∃ plain plain', List.Forall₂ Tag.Returns plain plain' ∧
      let tags := plain.flatMap settings.withQualified
      let tags' := plain'.flatMap settings.withQualified
      tagTokens settings given ts = (given ++ tags,tags.length) ∧
      tagTokens settings given us = (given ++ tags',tags'.length) := by
  have hrole : List.Forall₂ Token.SameRole ts us := h.imp fun _ _ ht => ⟨ht.kind,ht.keyword⟩
  obtain ⟨found,hfound,hs,hu⟩ := tagTokens_parallel hrole settings given given
  have htags : ∀ names : List (DeclarationKind × Token), settings.tagsOf names =
      (names.map fun x => Tag.ofToken x.1 x.2).flatMap settings.withQualified := by
    intro names
    rw [List.flatMap_map]
    rfl
  rw [htags] at hs hu
  refine ⟨_,_,?_,hs,hu⟩
  rw [List.forall₂_map_left_iff,List.forall₂_map_right_iff]
  refine (forall₂_namesAt h hfound).imp ?_
  rintro ⟨kind,t⟩ ⟨_,u⟩ ⟨rfl,ht⟩
  exact ht.ofToken kind

/-- Line endings do not matter. A file that is empty or ends its last line, and has no newline after a less-than
sign, has the same tokens on the same lines when a carriage return is put before each newline, and the returns are
in the texts of strings alone. Its names are those of the same tokens then. So the tags are of the same kinds, on
the same lines and in the same order, and each name has the carriage returns that were put in: so do the qualified
names, unless there are newlines in the scope. -/
theorem tagSource_withReturns {f : SourceFile} (hline : EndsLine f.bytes)
    (hless : ¬[Byte.less,Byte.newline] <:+: f.bytes) (settings : TagSettings) (lexicon : Lexicon)
    (given : Array Tag) :
    List.Forall₂ Token.Returns (tokens (Scanner.ofSource f.reader lexicon))
      (tokens (Scanner.ofSource f.withReturns.reader lexicon)) ∧
    ∃ plain plain', List.Forall₂ Tag.Returns plain plain' ∧
      let tags := plain.flatMap settings.withQualified
      let tags' := plain'.flatMap settings.withQualified
      tagSource settings lexicon given f.reader = (given ++ tags,tags.length) ∧
      tagSource settings lexicon given f.withReturns.reader = (given ++ tags',tags'.length) ∧
      List.Forall₂ (fun tag tag' => tag.kind = tag'.kind ∧ tag.pos.line = tag'.pos.line) tags tags' ∧
      ((∀ scope ∈ settings.scope, '\n' ∉ scope.toList) → List.Forall₂ Tag.Returns tags tags') := by
  have htokens := SourceFile.tokens_withReturns hline hless lexicon
  obtain ⟨plain,plain',hplain,hs,hs'⟩ := tagTokens_returns htokens settings given
  rw [tagSource_eq_tokens,tagSource_eq_tokens,f.tokens_reader,f.withReturns.tokens_reader]
  refine ⟨htokens,plain,plain',hplain,hs,hs',?_,?_⟩
  · refine List.rel_flatMap hplain ?_
    intro tag tag' h
    exact settings.forall₂_withQualified ⟨h.kind,h.line⟩ fun _ _ => ⟨h.kind,h.line⟩
  · intro hscope
    refine List.rel_flatMap hplain ?_
    intro tag tag' h
    exact settings.forall₂_withQualified h fun scope hs => h.qualify (hscope scope hs)

def linesSample : SourceFile := ⟨Utf8.encode "fn f() \x7b\x7d // x\nlet \"a\n\\\nb\", c /* \n */ / <- d\n"⟩

theorem tagSource_withReturns_sample :
    EndsLine linesSample.bytes ∧ ¬[Byte.less,Byte.newline] <:+: linesSample.bytes ∧
    List.Forall₂ Token.Returns (tokens (Scanner.ofSource linesSample.reader .standard))
      (tokens (Scanner.ofSource linesSample.withReturns.reader .standard)) ∧
    (tagSource ⟨.all,true,some "m"⟩ .standard #[] linesSample.reader).2 =
      (tagSource ⟨.all,true,some "m"⟩ .standard #[] linesSample.withReturns.reader).2 := by
  have hline : EndsLine linesSample.bytes := by
    unfold EndsLine
    decide +kernel
  have hless : ¬[Byte.less,Byte.newline] <:+: linesSample.bytes := by decide +kernel
  obtain ⟨htokens,plain,plain',-,hs,hs',hplaced,-⟩ :=
    tagSource_withReturns hline hless ⟨.all,true,some "m"⟩ .standard #[]
  refine ⟨hline,hless,htokens,?_⟩
  rw [hs,hs']
  exact hplaced.length_eq

end SourceTags
