import SourceTags.Proofs.ReportedNames
import SourceTags.Proofs.Terminators

/-! # Comments act as blanks

What a scanner reads depends on the bytes that are still to be given, a byte that has been taken back before the
others, and on no position. A comment among them is passed like the one blank that it acts as: a newline if it
breaks the line and a space if it does not, and such a space between two tiles is nothing. So comments can be put
in, taken out and changed, and the tokens stay as they are but for their positions.
-/
namespace SourceTags
open TokenStream

/-- What a token is apart from where it stands. -/
def Token.spelled (t : Token) : TokenKind × Option Keyword × List UInt8 := (t.kind,t.keyword,t.text)

theorem Token.AlikeAt.alike {P : Position → Position → Prop} {t u : Token} (h : t.AlikeAt P u) : t.Alike u :=
  ⟨h.kind,h.keyword,h.text⟩

theorem Token.alike_iff {t u : Token} : t.Alike u ↔ t.spelled = u.spelled := by
  simp only [Alike,spelled,Prod.mk.injEq]

theorem forall₂_alike_iff {ts us : List Token} :
    List.Forall₂ Token.Alike ts us ↔ ts.map Token.spelled = us.map Token.spelled := by
  rw [← List.forall₂_eq_eq_eq,List.forall₂_map_left_iff,List.forall₂_map_right_iff]
  simp only [← Token.alike_iff]

namespace Cursor

/-- The bytes still to be given. -/
def upcoming (c : Cursor) : List UInt8 := (c.held.map Prod.fst).toList ++ c.rest

structure SameBytes (c d : Cursor) : Prop where
  held : c.held.map Prod.fst = d.held.map Prod.fst
  rest : c.rest = d.rest

namespace SameBytes

variable {c c' d : Cursor} {b : UInt8}

theorem next_none (h : c.SameBytes d) (hn : c.next? = none) : d.next? = none := by
  obtain ⟨hheld,hrest⟩ := h
  obtain ⟨cheld,crest,_,_⟩ := c
  obtain ⟨dheld,drest,_,_⟩ := d
  dsimp only at hheld hrest
  subst hrest
  cases cheld with
  | some => contradiction
  | none =>
    obtain rfl := Option.map_eq_none_iff.mp hheld.symm
    cases crest with
    | nil => rfl
    | cons => contradiction

theorem next_some (h : c.SameBytes d) (hn : c.next? = some (b,c')) : ∃ d', d.next? = some (b,d') ∧ c'.SameBytes d' := by
  obtain ⟨hheld,hrest⟩ := h
  obtain ⟨cheld,crest,_,_⟩ := c
  obtain ⟨dheld,drest,_,_⟩ := d
  dsimp only at hheld hrest
  subst hrest
  cases cheld with
  | some x =>
    obtain ⟨⟨_,p⟩,rfl,rfl⟩ := Option.map_eq_some_iff.mp hheld.symm
    cases hn
    exact ⟨_,rfl,rfl,rfl⟩
  | none =>
    obtain rfl := Option.map_eq_none_iff.mp hheld.symm
    cases crest with
    | nil => contradiction
    | cons =>
      cases hn
      exact ⟨_,rfl,rfl,rfl⟩

theorem lockstep : Lockstep (fun _ _ => True) SameBytes where
  next_none := next_none
  next_some := next_some
  putBack _ h := ⟨rfl,h.rest⟩
  skipPast {c d} b h := by
    obtain ⟨c',hc,hs⟩ := (readsThrough_skipPast b c).lockstep next_none next_some h
    exact hc.unique (readsThrough_skipPast b d) ▸ hs
  position _ := trivial

end SameBytes

variable {p : Position} {bytes : List UInt8} {c : Cursor}

theorem Before.upcoming_eq (h : Before p bytes c) : c.upcoming = bytes := by cases h <;> rfl

theorem exists_before (c : Cursor) : ∃ d, c.SameBytes d ∧ Before ⟨1,0⟩ c.upcoming d := by
  obtain ⟨held,rest,here,ahead⟩ := c
  cases held with
  | none => exact ⟨⟨none,rest,here,⟨1,0⟩⟩,⟨rfl,rfl⟩,.given⟩
  | some x => exact ⟨⟨some (x.1,⟨1,0⟩),rest,here,_⟩,⟨rfl,rfl⟩,.held⟩

end Cursor
open Cursor

section Upcoming

variable {lexicon : Lexicon} {previous : TokenKind} {p : Position} {bytes rest : List UInt8} {c : Cursor}

/-- It makes no difference to the tokens whether the first byte has been taken back. -/
theorem tokens_before (hc : Before p bytes c) :
    tokens (⟨c,lexicon,previous⟩ : Scanner Cursor) = tokens (⟨⟨none,bytes,p,p⟩,lexicon,previous⟩ : Scanner Cursor) := by
  have hgiven : Before p bytes ⟨none,bytes,p,p⟩ := .given
  cases bytes with
  | nil =>
    have hnone : ∀ {d : Cursor}, Before p (Tile.spell []) d → tokens (⟨d,lexicon,previous⟩ : Scanner Cursor) = [] :=
      fun hd => tokens_tiles hd trivial
    rw [hnone hc,hnone hgiven]
  | cons b rest =>
    have hblanks : afterBlanks previous.mayEndStatement c =
        afterBlanks previous.mayEndStatement (⟨none,b :: rest,p,p⟩ : Cursor) :=
      (afterBlanks_some hc.next_cons).trans (afterBlanks_some hgiven.next_cons).symm
    apply tokens_congr
    rw [advance_scanner,advance_scanner,nextToken_congr hblanks]

theorem spelled_upcoming (c : Cursor) :
    (tokens (⟨c,lexicon,previous⟩ : Scanner Cursor)).map Token.spelled =
      (tokens (⟨.ofList 0 c.upcoming,lexicon,previous⟩ : Scanner Cursor)).map Token.spelled := by
  obtain ⟨d,hsame,hd⟩ := exists_before c
  have hscanner : Scanner.Alike SameBytes ⟨c,lexicon,previous⟩ ⟨d,lexicon,previous⟩ := ⟨hsame,rfl,rfl⟩
  have halike := SameBytes.lockstep.simulation.forall₂_tokens hscanner
  rw [tokens_before hd] at halike
  exact forall₂_alike_iff.mp (halike.imp fun _ _ ht => ht.alike)

theorem spelled_trivia {t : Tile} (ht : t.Fits rest) (hu : ∀ p, t.token? lexicon p = none) :
    (tokens (⟨.ofList 0 (t.bytes ++ rest),lexicon,previous⟩ : Scanner Cursor)).map Token.spelled =
      if previous.mayEndStatement && t.breaksLine then
        (.terminator,none,[]) :: (tokens (⟨.ofList 0 rest,lexicon,.terminator⟩ : Scanner Cursor)).map Token.spelled
      else (tokens (⟨.ofList 0 rest,lexicon,previous⟩ : Scanner Cursor)).map Token.spelled := by
  let c := Cursor.ofList 0 (t.bytes ++ rest)
  have hc : Before ⟨1,0⟩ (t.bytes ++ rest) c := .given
  have hr := advance_scanner lexicon previous c
  obtain ⟨c',hc',hn⟩ := nextToken_trivia hc ht (hu ⟨1,0⟩)
  rw [hn] at hr
  split
  · next he =>
    rw [if_pos he] at hr
    rw [tokens_token hr,List.map_cons,spelled_upcoming,hc'.upcoming_eq]
    rfl
  · next he =>
    rw [if_neg he,← advance_scanner] at hr
    rw [tokens_congr hr,spelled_upcoming,hc'.upcoming_eq]

end Upcoming

namespace Reader

/-- The bytes still to be given, the newline that is owed among them. -/
def upcoming (r : Reader) : List UInt8 :=
  (r.held.map Prod.fst).toList ++ (r.rest ++ if r.owesNewline then [Byte.newline] else [])

def asCursor (r : Reader) : Cursor := ⟨r.held,r.rest ++ if r.owesNewline then [Byte.newline] else [],r.here,r.ahead⟩

theorem matches_asCursor (r : Reader) : r.Matches r.asCursor := ⟨rfl,rfl,rfl,fun _ => rfl⟩

end Reader

variable {lexicon : Lexicon} {previous : TokenKind}

theorem spelled_reader {r : Reader} {bytes : List UInt8} (h : r.upcoming = bytes) :
    (tokens (⟨r,lexicon,previous⟩ : Scanner Reader)).map Token.spelled =
      (tokens (⟨.ofList 0 bytes,lexicon,previous⟩ : Scanner Cursor)).map Token.spelled := by
  subst h
  rw [Reader.Matches.lockstep.tokens_eq lexicon previous r.matches_asCursor]
  exact spelled_upcoming r.asCursor

/-- From the readers, after a token of one kind, come the same tokens but for their positions. -/
def Reader.SameTokens (lexicon : Lexicon) (previous : TokenKind) (r r' : Reader) : Prop :=
  List.Forall₂ Token.Alike (tokens (⟨r,lexicon,previous⟩ : Scanner Reader))
    (tokens (⟨r',lexicon,previous⟩ : Scanner Reader))

theorem sameTokens_of_trivia {t u : Tile} {rest : List UInt8} {r r' : Reader} (ht : t.Fits rest) (hu : u.Fits rest)
    (ht' : t.isTrivia = true) (hu' : u.isTrivia = true) (hb : t.breaksLine = u.breaksLine)
    (hr : r.upcoming = t.bytes ++ rest) (hr' : r'.upcoming = u.bytes ++ rest) : r.SameTokens lexicon previous r' := by
  rw [Reader.SameTokens,forall₂_alike_iff,spelled_reader hr,spelled_reader hr',
    spelled_trivia ht fun _ => Tile.token?_eq_none_iff.mpr ht',
    spelled_trivia hu fun _ => Tile.token?_eq_none_iff.mpr hu',hb]

namespace Tile

/-- The tile, or the blank that a comment acts as. -/
def uncommented : Tile → Tile
  | lineComment _ => blank Byte.newline
  | blockComment text _ => blank (if text.contains Byte.newline then Byte.newline else Byte.space)
  | t => t

variable {t : Tile} {tiles : List Tile} {ends : Bool}

theorem breaksLine_uncommented (t : Tile) : t.uncommented.breaksLine = t.breaksLine := by
  cases t with
  | blockComment text closed =>
    simp only [uncommented,breaksLine]
    cases text.contains Byte.newline <;> rfl
  | _ => rfl

theorem token?_uncommented (t : Tile) (p : Position) : t.uncommented.token? lexicon p = t.token? lexicon p := by
  cases t <;> rfl

theorem spelled_token? (lexicon : Lexicon) (t : Tile) (p q : Position) :
    (t.token? lexicon p).map Token.spelled = (t.token? lexicon q).map Token.spelled := by
  cases t with
  | word first more =>
    simp only [token?,Token.ofWord,Option.map_some]
    split <;> rfl
  | _ => rfl

/-- The tile spells no token and breaks no line. -/
def isQuiet (t : Tile) : Bool := t.isTrivia && !t.breaksLine

/-- The row without its quiet tiles, and with a newline for each comment that is left. -/
def bare (tiles : List Tile) : List Tile := (tiles.filter fun t => !t.isQuiet).map uncommented

theorem bare_quiet (ht : t.isQuiet = true) : bare (t :: tiles) = bare tiles := by simp [bare,ht]

theorem bare_loud (ht : t.isQuiet = false) : bare (t :: tiles) = t.uncommented :: bare tiles := by simp [bare,ht]

/-- The bare row has the tokens of the row, but for their positions. -/
theorem spelled_bare (p q : Position) :
    (tokens lexicon ends p tiles).map Token.spelled = (tokens lexicon ends q (bare tiles)).map Token.spelled := by
  induction tiles generalizing ends p q with
  | nil => rfl
  | cons t tiles ih =>
    have hspelled := t.spelled_token? lexicon p q
    cases hq : t.isQuiet with
    | true =>
      obtain ⟨htrivia,hbreak⟩ := Bool.and_eq_true_iff.mp hq
      have hno : (ends && t.breaksLine) = false := by simp_all
      rw [bare_quiet hq,tokens_trivia (token?_eq_none_iff.mpr htrivia) hno]
      exact ih ..
    | false =>
      rw [bare_loud hq]
      cases hv : t.token? lexicon p with
      | some v =>
        rw [hv] at hspelled
        obtain ⟨w,hw,hvw⟩ := Option.map_eq_some_iff.mp hspelled.symm
        have hkind : w.kind = v.kind := congrArg Prod.fst hvw
        rw [tokens_token hv,tokens_token ((token?_uncommented t q).trans hw),List.map_cons,List.map_cons,hvw,hkind,ih]
      | none =>
        have hbreak : t.breaksLine = true := by simpa [isQuiet,token?_eq_none_iff.mp hv] using hq
        have hbreak' := t.breaksLine_uncommented.trans hbreak
        rw [hv] at hspelled
        have hw : t.uncommented.token? lexicon q = none :=
          (token?_uncommented t q).trans (Option.map_eq_none_iff.mp hspelled.symm)
        cases ends with
        | false =>
          rw [tokens_trivia hv rfl,tokens_trivia hw rfl]
          exact ih ..
        | true =>
          rw [tokens_break hv hbreak,tokens_break hw hbreak',List.map_cons,List.map_cons,ih]
          rfl

theorem head?_uncommented {b : UInt8} (hb : b ∈ (spell (tiles.map uncommented)).head?) :
    b ∈ (spell tiles).head? ∨ b = Byte.newline ∨ b = Byte.space := by
  cases tiles with
  | nil => contradiction
  | cons t tiles =>
    cases t with
    | lineComment text =>
      obtain rfl := Option.some.inj hb
      exact .inr (.inl rfl)
    | blockComment text closed =>
      obtain rfl := Option.some.inj hb
      apply Or.inr
      split
      · exact .inl rfl
      · exact .inr rfl
    | _ => exact .inl hb

theorem fits_uncommented {rest more : List UInt8} (ht : t.isTrivia = true) (h : t.Fits rest) :
    t.uncommented.Fits more := by
  cases t with
  | lineComment text => rfl
  | blockComment text closed =>
    change Byte.isBlank _ = true
    split <;> rfl
  | blank | dropped => exact h
  | word | literal | punctuation | slash | arrow => contradiction

theorem Tiled.uncommented (h : Tiled tiles) : Tiled (tiles.map uncommented) := by
  induction tiles with
  | nil => trivial
  | cons t tiles ih =>
    obtain ⟨hfit,htiles⟩ := h
    refine ⟨?_,ih htiles⟩
    cases t with
    | blank | lineComment | blockComment | dropped => exact fits_uncommented rfl hfit
    | word first more =>
      obtain ⟨hfirst,hmore,hrest⟩ := hfit
      refine ⟨hfirst,hmore,?_⟩
      intro b hb
      rcases head?_uncommented hb with hb | rfl | rfl
      · exact hrest b hb
      · rfl
      · rfl
    | literal delimiter body closed =>
      obtain ⟨hd,hbody,hrest⟩ := hfit
      refine ⟨hd,hbody,?_⟩
      intro hc
      rw [spell_eq_nil,List.map_eq_nil_iff,← spell_eq_nil]
      exact hrest hc
    | slash =>
      intro b hb
      rcases head?_uncommented hb with hb | rfl | rfl
      · exact hfit b hb
      · decide
      · decide
    | punctuation | arrow => exact hfit

theorem no_closer_star {text : List UInt8} (h : ¬closer <:+: text) : ¬closer <:+: text ++ [Byte.star] := by
  intro hi
  rcases List.infix_concat_iff.mp hi with hs | hi
  · have hlast : closer.getLast? = some Byte.star := by
      obtain ⟨before,hb⟩ := hs
      have := congrArg List.getLast? hb
      simpa [closer] using this
    exact absurd hlast (by decide)
  · exact h hi

end Tile
open Tile

theorem SourceFile.alike_of_bare {f f' : SourceFile} {tiles tiles' : List Tile} (ht : Tiled tiles)
    (hf : spell tiles = f.content) (ht' : Tiled tiles') (hf' : spell tiles' = f'.content)
    (h : bare tiles = bare tiles') (lexicon : Lexicon) :
    List.Forall₂ Token.Alike (f.tokens lexicon) (f'.tokens lexicon) := by
  rw [forall₂_alike_iff,tokens_tiles ht hf,tokens_tiles ht' hf']
  calc (Tile.tokens lexicon false ⟨1,f.start⟩ tiles).map Token.spelled
      = (Tile.tokens lexicon false ⟨1,0⟩ (bare tiles)).map Token.spelled := spelled_bare ..
    _ = (Tile.tokens lexicon false ⟨1,0⟩ (bare tiles')).map Token.spelled := by rw [h]
    _ = (Tile.tokens lexicon false ⟨1,f'.start⟩ tiles').map Token.spelled := (spelled_bare ..).symm

/-- A comment acts as a blank. From whatever state tokens are read, after a token of any kind, those after a line
comment are those after its newline alone, and those after a block comment are those after one blank: a newline if
the comment spans lines and a space if it does not. So files whose rows are the same when bare, with comments of any
text or none, have tags of the same names and kinds. -/
theorem comments_act_as_blanks (lexicon : Lexicon) :
    (∀ (previous : TokenKind) (r r' : Reader) (text rest : List UInt8), Byte.newline ∉ text →
      r.upcoming = Byte.slash :: Byte.slash :: (text ++ Byte.newline :: rest) → r'.upcoming = Byte.newline :: rest →
      r.SameTokens lexicon previous r') ∧
    (∀ (previous : TokenKind) (r r' : Reader) (text rest : List UInt8), ¬closer <:+: text →
      r.upcoming = Byte.slash :: Byte.star :: (text ++ Byte.star :: Byte.slash :: rest) →
      r'.upcoming = (if text.contains Byte.newline then Byte.newline else Byte.space) :: rest →
      r.SameTokens lexicon previous r') ∧
    (∀ (settings : TagSettings) (given : Array Tag) (f f' : SourceFile) (tiles tiles' : List Tile),
      Tiled tiles → spell tiles = f.content → Tiled tiles' → spell tiles' = f'.content →
      bare tiles = bare tiles' →
      let found := tagSource settings lexicon given f.reader
      let found' := tagSource settings lexicon given f'.reader
      found.1.map Tag.shown = found'.1.map Tag.shown ∧ found.2 = found'.2) := by
  refine ⟨?_,?_,?_⟩
  · intro previous r r' text rest htext hr hr'
    have hfits : (lineComment text).Fits rest := htext
    have hbytes : r.upcoming = (lineComment text).bytes ++ rest := by simp [hr,bytes]
    exact sameTokens_of_trivia hfits (fits_uncommented rfl hfits) rfl rfl rfl hbytes hr'
  · intro previous r r' text rest htext hr hr'
    have hfits : (blockComment text true).Fits rest := no_closer_star htext
    have hbytes : r.upcoming = (blockComment text true).bytes ++ rest := by simp [hr,bytes]
    have hbreak := (blockComment text true).breaksLine_uncommented.symm
    exact sameTokens_of_trivia hfits (fits_uncommented rfl hfits) rfl rfl hbreak hbytes hr'
  · intro settings given f f' tiles tiles' ht hf ht' hf' hsame
    rw [tagSource_eq_tokens,tagSource_eq_tokens,f.tokens_reader,f'.tokens_reader]
    exact shown_tagTokens (SourceFile.alike_of_bare ht hf ht' hf' hsame lexicon) settings given

def uncommentedSample : SourceFile := ⟨spell (respacedTiles.map uncommented)⟩

theorem tiled_uncommentedSample :
    Tiled (respacedTiles.map uncommented) ∧ spell (respacedTiles.map uncommented) = uncommentedSample.content :=
  ⟨tiled_respacedTiles.1.uncommented,by decide +kernel⟩

theorem comments_act_as_blanks_sample :
    Reader.SameTokens .standard .identifier ⟨Utf8.encode "/ \"*/\nb",some (Byte.slash,⟨1,1⟩),⟨1,1⟩,⟨1,2⟩,true⟩
      ⟨Utf8.encode "\nb",none,⟨1,1⟩,⟨1,1⟩,true⟩ ∧
    Reader.SameTokens .standard .closeParen ⟨Utf8.encode "/** /*\n'**/ b",none,⟨1,1⟩,⟨1,1⟩,false⟩
      ⟨Utf8.encode " b",some (Byte.newline,⟨1,1⟩),⟨1,1⟩,⟨1,2⟩,false⟩ ∧
    (tagSource ⟨.all,true,some "m"⟩ .standard #[] respacedSample.reader).1.map Tag.shown =
      (tagSource ⟨.all,true,some "m"⟩ .standard #[] uncommentedSample.reader).1.map Tag.shown := by
  obtain ⟨hline,hblock,htags⟩ := comments_act_as_blanks .standard
  refine ⟨?_,?_,?_⟩
  · exact hline _ _ _ (Utf8.encode " \"*/") (Utf8.encode "b\n") (by decide +kernel) (by decide +kernel)
      (by decide +kernel)
  · exact hblock _ _ _ (Utf8.encode "* /*\n'*") (Utf8.encode " b") (by decide +kernel) (by decide +kernel)
      (by decide +kernel)
  · have hbare : bare respacedTiles = bare (respacedTiles.map uncommented) := by decide
    exact (htags _ _ _ _ _ _ tiled_respacedTiles.1 tiled_respacedTiles.2 tiled_uncommentedSample.1
      tiled_uncommentedSample.2 hbare).1

end SourceTags
