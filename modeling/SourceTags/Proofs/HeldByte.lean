import SourceTags.Proofs.Comments
import SourceTags.Proofs.ReadTokens
import SourceTags.Proofs.ReadCount
import SourceTags.Proofs.Terminators

/-! # One byte held is enough

A source that takes a byte back while it holds another one loses the one that it holds. A scanner never lets that happen:
it takes nothing back but what it has just been given, or a blank in place of a comment, where nothing is held. A
watched reader keeps a record of what is given and of what is lost. After any number of readings nothing has been lost,
and a byte that is held is the one given last. The tiles say which byte that is: the next one of the content behind the
bytes of the token, so never the blank of a comment, which is gone before a token starts.
-/
namespace SourceTags
open ByteSource TokenStream

/-- A byte behind the token is looked at to see that it ends: it is a word, or a slash that opens no comment. -/
def Token.LooksAhead (t : Token) : Prop := t.kind = .identifier ∨ t.kind = .keyword ∨ t.kind = .forwardSlash

theorem Token.looksAhead_ofWord (lexicon : Lexicon) (text : List UInt8) (p : Position) :
    (Token.ofWord lexicon text p).LooksAhead := by
  unfold ofWord
  split
  · exact .inr (.inl rfl)
  · exact .inl rfl

/-- A reader with a record of what it gives and loses. -/
structure Watched where
  reader : Reader
  /-- The byte given last, and its position. -/
  last : Option (UInt8 × Position)
  /-- The bytes that were held when another one was taken back. -/
  lost : List (UInt8 × Position)

namespace Watched

def start (r : Reader) : Watched := ⟨r,none,[]⟩

def next? (w : Watched) : Option (UInt8 × Watched) :=
  w.reader.next?.map fun x => (x.1,{ w with reader := x.2, last := some (x.1,x.2.here) })

def putBack (b : UInt8) (w : Watched) : Watched :=
  { w with reader := w.reader.putBack b, lost := w.reader.held.toList ++ w.lost }

def skipPast (target : UInt8) (w : Watched) : Watched := { w with reader := w.reader.skipPast target }

theorem next?_eq_some {w w' : Watched} {b : UInt8} (h : w.next? = some (b,w')) :
    ∃ r, w.reader.next? = some (b,r) ∧ w' = ⟨r,some (b,r.here),w.lost⟩ := by
  obtain ⟨⟨_,r⟩,hr,hx⟩ := Option.map_eq_some_iff.mp h
  cases hx
  exact ⟨r,hr,rfl⟩

instance : ByteSource Watched where
  next? := next?
  putBack := putBack
  skipPast := skipPast
  lastPosition w := w.reader.here
  unread w := w.reader.unread
  unread_next := by
    intro w w' b h
    obtain ⟨r,hr,rfl⟩ := next?_eq_some h
    exact Reader.unread_next hr
  unread_putBack b w := Reader.unread_putBack b w.reader
  unread_skipPast target w := Reader.unread_skipPast target w.reader

theorem lockstep : Lockstep Eq fun (w : Watched) (r : Reader) => w.reader = r where
  next_none := by
    rintro w _ rfl h
    exact Option.map_eq_none_iff.mp h
  next_some := by
    rintro w _ _ b rfl h
    obtain ⟨r,hr,rfl⟩ := next?_eq_some h
    exact ⟨r,hr,rfl⟩
  putBack b h := congrArg (Reader.putBack b) h
  skipPast target h := congrArg (Reader.skipPast target) h
  position h := congrArg Reader.here h

def Keeps (w w' : Watched) : Prop := w'.lost = w.lost

/-- On the way from `w` nothing has been lost, and nothing is held now. -/
def Empties (w w' : Watched) : Prop := w'.lost = w.lost ∧ w'.reader.held = none

/-- On the way from `w` nothing has been lost, and a byte that is held now is the one given last. -/
def Returns (w w' : Watched) : Prop :=
  w'.lost = w.lost ∧ ∀ x ∈ w'.reader.held, w'.last = some x ∧ w'.reader.here = x.2

variable {w w' w'' : Watched} {b : UInt8} {lexicon : Lexicon} {ends : Bool} {t left : Token}

theorem Empties.returns (h : w.Empties w') : w.Returns w' := by
  refine ⟨h.1,?_⟩
  rw [h.2]
  rintro x (_ | _)

theorem empties_of_none (h : ByteSource.next? w = none) : w.Empties w := by
  have hend := w.reader.isAtEnd_iff.mpr (Option.map_eq_none_iff.mp h)
  simp only [Reader.isAtEnd,Bool.and_eq_true,Option.isNone_iff_eq_none] at hend
  exact ⟨rfl,hend.1.1⟩

theorem held_of_next {r r' : Reader} (h : r.next? = some (b,r')) : r'.held = none := by
  unfold Reader.next? at h
  split at h
  · cases h
    rfl
  · next hheld =>
    split at h
    · cases h
      exact hheld
    · split at h
      · cases h
        exact hheld
      · contradiction

theorem empties_of_next (h : ByteSource.next? w = some (b,w')) : w.Empties w' := by
  obtain ⟨r,hr,rfl⟩ := next?_eq_some h
  exact ⟨rfl,held_of_next hr⟩

theorem returns_putBack (h : ByteSource.next? w = some (b,w')) : w.Returns (ByteSource.putBack b w') := by
  obtain ⟨r,hr,rfl⟩ := next?_eq_some h
  have hheld := held_of_next hr
  constructor
  · change r.held.toList ++ w.lost = w.lost
    rw [hheld]
    rfl
  · rintro x ⟨⟩
    exact ⟨rfl,rfl⟩

theorem Empties.keeps_putBack (h : w.Empties w') (b : UInt8) : w.Keeps (ByteSource.putBack b w') := by
  change w'.reader.held.toList ++ w'.lost = w.lost
  rw [h.2]
  exact h.1

theorem empties_skipPast (target : UInt8) (w : Watched) : w.Empties (ByteSource.skipPast target w) := by
  have hjump : ∀ r : Reader, r.held = none → (r.jump target).held = none := by
    intro r hr
    unfold Reader.jump
    split
    · exact hr
    · split <;> exact hr
  refine ⟨rfl,?_⟩
  change (w.reader.skipPast target).held = none
  unfold Reader.skipPast
  split
  · split
    · rfl
    · exact hjump _ rfl
  · next hheld => exact hjump _ hheld

theorem empties_afterBlanks (ends : Bool) (w : Watched) : match afterBlanks ends w with
    | .terminator rest | .byte _ rest | .endOfInput rest => w.Empties rest := by
  fun_induction afterBlanks ends w with
  | case1 w h => exact empties_of_none h
  | case2 w b rest h => exact empties_of_next h
  | case3 w b rest h _ _ ih =>
    have hlost := (empties_of_next h).1
    split at ih <;> exact ⟨ih.1.trans hlost,ih.2⟩
  | case4 w b rest h => exact empties_of_next h

theorem empties_seekStar (spans : Bool) (w : Watched) : w.Empties (seekStar spans w).rest := by
  fun_induction seekStar spans w with
  | case1 _ w h => exact empties_of_none h
  | case2 _ w rest h => exact empties_of_next h
  | case3 _ w b rest h _ ih => exact ⟨ih.1.trans (empties_of_next h).1,ih.2⟩

theorem empties_closeBlockComment (spans : Bool) (w : Watched) : w.Empties (closeBlockComment spans w).rest := by
  fun_induction closeBlockComment spans w with
  | case1 spans w => exact empties_seekStar spans w
  | case2 spans w rest h =>
    have hstar := empties_seekStar spans w
    have hnext := empties_of_next h
    exact ⟨hnext.1.trans hstar.1,hnext.2⟩
  | case3 spans w b rest h _ ih =>
    have hstar := empties_seekStar spans w
    have hback := returns_putBack h
    exact ⟨ih.1.trans (hback.1.trans hstar.1),ih.2⟩

theorem keeps_afterLineComment (w : Watched) : w.Keeps (afterLineComment w) :=
  (empties_skipPast Byte.newline w).keeps_putBack Byte.newline

theorem keeps_afterBlockComment (w : Watched) : w.Keeps (afterBlockComment w) :=
  (empties_closeBlockComment false w).keeps_putBack _

theorem empties_readLiteral (delimiter : UInt8) (text : List UInt8) (w : Watched) :
    w.Empties (readLiteral delimiter text w).rest := by
  fun_induction readLiteral delimiter text w with
  | case1 _ w h => exact empties_of_none h
  | case2 _ w b rest h => exact empties_of_next h
  | case3 _ w b rest h _ escaped after h' ih =>
    exact ⟨ih.1.trans ((empties_of_next h').1.trans (empties_of_next h).1),ih.2⟩
  | case4 _ w rest h => exact empties_of_next h
  | case5 _ w b rest h _ _ ih => exact ⟨ih.1.trans (empties_of_next h).1,ih.2⟩

theorem returns_readWord (text : List UInt8) (w : Watched) : w.Returns (readWord text w).rest := by
  fun_induction readWord text w with
  | case1 _ w h => exact (empties_of_none h).returns
  | case2 _ w b rest h _ ih => exact ⟨ih.1.trans (empties_of_next h).1,ih.2⟩
  | case3 _ w b rest h => exact returns_putBack h

/-- Nothing has been lost, and a byte is held only if one had to be looked at to see where the token ends. -/
def AfterLexeme (w : Watched) : Lexeme Watched → Prop
  | .token t rest => w.Returns rest ∧ (rest.reader.held = none ∨ t.LooksAhead)
  | .trivia rest => w.Keeps rest

theorem lexemeAtSlash_watched (w : Watched) : w.AfterLexeme (lexemeAtSlash w) := by
  unfold lexemeAtSlash
  split
  · next h => exact ⟨(empties_of_none h).returns,.inl (empties_of_none h).2⟩
  · next b rest h =>
    have hlost := (empties_of_next h).1
    split
    · exact (keeps_afterLineComment rest).trans hlost
    split
    · exact (keeps_afterBlockComment rest).trans hlost
    · exact ⟨returns_putBack h,.inr (.inr (.inr rfl))⟩

theorem lexemeAtLess_watched (w : Watched) : w.AfterLexeme (lexemeAtLess w) := by
  unfold lexemeAtLess
  split
  · rfl
  · next b rest h =>
    split
    · exact ⟨(empties_of_next h).returns,.inl (empties_of_next h).2⟩
    · exact (empties_of_next h).1

theorem lexeme_watched (lexicon : Lexicon) (b : UInt8) (h : w.reader.held = none) :
    w.AfterLexeme (lexeme lexicon b w) := by
  unfold lexeme
  split
  · exact lexemeAtSlash_watched w
  split
  · exact lexemeAtLess_watched w
  split
  · exact ⟨(empties_readLiteral b [] w).returns,.inl (empties_readLiteral b [] w).2⟩
  split
  · exact ⟨Empties.returns ⟨rfl,h⟩,.inl h⟩
  · exact ⟨returns_readWord [b] w,.inr (Token.looksAhead_ofWord ..)⟩

/-- A reading loses nothing, however often the scan starts anew. -/
theorem returns_nextToken (lexicon : Lexicon) (ends : Bool) (w : Watched) :
    match nextToken lexicon ends w with
    | .token t rest => w.Returns rest ∧ (rest.reader.held = none ∨ t.LooksAhead)
    | .endOfInput _ rest => w.Empties rest := by
  fun_induction nextToken lexicon ends w with
  | case1 w rest hb =>
    have hblank := empties_afterBlanks ends w
    rw [hb] at hblank
    exact hblank
  | case2 w rest hb =>
    have hblank := empties_afterBlanks ends w
    rw [hb] at hblank
    exact ⟨hblank.returns,.inl hblank.2⟩
  | case3 w b rest hb t after hl =>
    have hblank := empties_afterBlanks ends w
    rw [hb] at hblank
    have hlex := lexeme_watched lexicon b hblank.2
    rw [hl] at hlex
    obtain ⟨⟨hlost,hlast⟩,hheld⟩ := hlex
    exact ⟨⟨hlost.trans hblank.1,hlast⟩,hheld⟩
  | case4 w b rest hb after hl ih =>
    have hblank := empties_afterBlanks ends w
    rw [hb] at hblank
    have hlex := lexeme_watched lexicon b hblank.2
    rw [hl] at hlex
    have hlost : after.lost = w.lost := Eq.trans hlex hblank.1
    split at ih
    · exact ⟨⟨ih.1.1.trans hlost,ih.1.2⟩,ih.2⟩
    · exact ⟨ih.1.trans hlost,ih.2⟩

theorem returns_advance (z : Scanner Watched) :
    match advance z with
    | .token t z' => z.source.Returns z'.source ∧ (z'.source.reader.held = none ∨ t.LooksAhead)
    | .endOfInput _ z' => z.source.Empties z'.source := by
  have hnext := returns_nextToken z.lexicon z.previous.mayEndStatement z.source
  change match z.advance with | .token t z' => _ | .endOfInput _ z' => _
  unfold Scanner.advance
  cases hr : nextToken z.lexicon z.previous.mayEndStatement z.source with
  | token t w =>
    rw [hr] at hnext
    exact hnext
  | endOfInput left w =>
    rw [hr] at hnext
    exact hnext

def unwatched (z : Scanner Watched) : Scanner Reader := ⟨z.source.reader,z.lexicon,z.previous⟩

theorem advance_unwatched (z : Scanner Watched) : (advance z).map unwatched = advance (unwatched z) := by
  have hnext := lockstep.nextToken z.lexicon z.previous.mayEndStatement (s := z.source) (u := z.source.reader) rfl
  change z.advance.map unwatched = (unwatched z).advance
  unfold Scanner.advance unwatched
  dsimp only
  rcases hnext.cases with ⟨t,w,u,r,hw,hr,ht,rfl⟩ | ⟨_,w,_,r,hw,hr⟩ | ⟨_,_,_,hnot⟩
  · rw [hw,hr]
    obtain rfl := ht.eq
    rfl
  · rw [hw,hr] at hnext ⊢
    obtain rfl := hnext trivial
    obtain ⟨-,rfl⟩ := next?_of_nextToken hw
    obtain ⟨-,rfl⟩ := next?_of_nextToken hr
    rfl
  · exact absurd trivial hnot

end Watched

/-- The scanner after so many readings, those that failed counted too. -/
def TokenStream.afterReadings {τ : Type} [TokenStream τ] : Nat → τ → τ
  | 0, s => s
  | n + 1, s => afterReadings n (advance s).rest

section Tiles
open Cursor Tile

variable {p : Position} {tiles : List Tile} {c : Cursor}

/-- A reading passes some tiles. The last of them spells the token, or breaks the line where that is one. -/
theorem nextToken_tiles (lexicon : Lexicon) (ends : Bool) (hc : Before p (spell tiles) c) (ht : Tiled tiles) :
    match nextToken lexicon ends c with
    | .token t c' => ∃ gap tile rest, tiles = gap ++ tile :: rest ∧
        Before ((p.pastAll (spell gap)).pastAll tile.bytes) (spell rest) c' ∧
        (tile.token? lexicon (p.pastAll (spell gap)) = some t ∨ t.kind = .terminator)
    | .endOfInput _ c' => Before (p.pastAll (spell tiles)) [] c' := by
  induction tiles generalizing p c with
  | nil =>
    rw [nextToken_endOfInput (afterBlanks_none hc.next_nil),spell_nil,Position.pastAll_nil]
    exact hc
  | cons tile tiles ih =>
    obtain ⟨hfit,htiles⟩ := ht
    rw [spell_cons] at hc
    cases hu : tile.token? lexicon p with
    | some u =>
      obtain ⟨c',hn,hc'⟩ := nextToken_token hc hfit hu
      rw [hn]
      refine ⟨[],tile,tiles,rfl,?_⟩
      rw [spell_nil,Position.pastAll_nil]
      exact ⟨hc',.inl hu⟩
    | none =>
      obtain ⟨c',hc',hn⟩ := nextToken_trivia hc hfit hu
      rw [hn]
      by_cases he : (ends && tile.breaksLine) = true
      · rw [if_pos he]
        refine ⟨[],tile,tiles,rfl,?_⟩
        rw [spell_nil,Position.pastAll_nil]
        exact ⟨hc',.inr rfl⟩
      · have hlater := ih hc' htiles
        rw [if_neg he]
        cases hr : nextToken lexicon ends c' with
        | token t c'' =>
          rw [hr] at hlater
          obtain ⟨gap,last,rest,rfl,hbefore,htoken⟩ := hlater
          refine ⟨tile :: gap,last,rest,rfl,?_⟩
          rw [spell_cons,Position.pastAll_append]
          exact ⟨hbefore,htoken⟩
        | endOfInput left c'' =>
          rw [hr] at hlater
          rw [spell_cons,Position.pastAll_append]
          exact hlater

end Tiles

section Runs
open Cursor Tile

/-- The reader has come to a place between two tiles of the content. It may hold the next byte. -/
structure SourceFile.OnTiles (f : SourceFile) (r : Reader) (before : List UInt8) (tiles : List Tile) : Prop where
  content : f.content = before ++ spell tiles
  tiled : Tiled tiles
  stands : ∃ c, r.Matches c ∧ Before ((⟨1,f.start⟩ : Position).pastAll before) (spell tiles) c

/-- The byte `x` of the content stands right behind the bytes that spell the token, and what is to come starts
with it. -/
def SourceFile.Behind (f : SourceFile) (lexicon : Lexicon) (t : Token) (x : UInt8 × Position) (r : Reader) : Prop :=
  ∃ (before : List UInt8) (tile : Tile) (more : List UInt8),
    f.content = before ++ (tile.bytes ++ x.1 :: more) ∧ tile.Fits (x.1 :: more) ∧
    tile.token? lexicon t.pos = some t ∧ t.pos = f.positionAt before.length ∧
    x.2 = f.positionAt (before ++ tile.bytes).length ∧ r.upcoming = x.1 :: more

theorem Reader.Matches.upcoming_eq {r : Reader} {c : Cursor} (h : r.Matches c) : r.upcoming = c.upcoming := by
  unfold Reader.upcoming Cursor.upcoming
  rw [h.held,h.rest]

variable {f : SourceFile} {lexicon : Lexicon} {z z' : Scanner Reader} {before : List UInt8} {tiles : List Tile} {t left : Token}

theorem SourceFile.exists_onTiles (f : SourceFile) : ∃ tiles, f.OnTiles f.reader [] tiles := by
  obtain ⟨tiles,ht,hf⟩ := exists_tiles f.endsLine_content
  refine ⟨tiles,hf.symm,ht,f.cursor,f.matches_reader,?_⟩
  rw [hf,Position.pastAll_nil]
  exact .given

namespace SourceFile.OnTiles

theorem upcoming (h : f.OnTiles z.source before tiles) : z.source.upcoming = spell tiles := by
  obtain ⟨c,hm,hc⟩ := h.stands
  rw [hm.upcoming_eq,hc.upcoming_eq]

theorem of_held (h : f.OnTiles z.source before tiles) {x : UInt8 × Position} (hx : z.source.held = some x) :
    ∃ more, spell tiles = x.1 :: more ∧ x.2 = f.positionAt before.length := by
  obtain ⟨c,hm,hc⟩ := h.stands
  have hheld := hm.held.trans hx
  rw [SourceFile.positionAt_length h.content]
  generalize spell tiles = bytes at hc
  cases hc with
  | given => contradiction
  | @held b more =>
    obtain rfl := Option.some.inj hheld
    exact ⟨more,rfl,rfl⟩

theorem advance (h : f.OnTiles z.source before tiles) :
    match TokenStream.advance z with
    | .token t z' => ∃ (gap : List Tile) (tile : Tile) (rest : List Tile),
        f.OnTiles z'.source (before ++ spell gap ++ tile.bytes) rest ∧ tile.Fits (spell rest) ∧
        f.content = (before ++ spell gap) ++ (tile.bytes ++ spell rest) ∧
        (tile.token? z.lexicon (f.positionAt (before ++ spell gap).length) = some t ∨ t.kind = .terminator)
    | .endOfInput _ z' => f.OnTiles z'.source f.content [] := by
  obtain ⟨c,hm,hc⟩ := h.stands
  have hsame := Reader.Matches.lockstep.nextToken z.lexicon z.previous.mayEndStatement hm
  have htiles := nextToken_tiles z.lexicon z.previous.mayEndStatement hc h.tiled
  change match z.advance with | .token t z' => _ | .endOfInput _ z' => _
  unfold Scanner.advance
  rcases hsame.cases with ⟨t,r,t',c',hr,hn,ht,hm'⟩ | ⟨_,r,_,c',hr,hn⟩ | ⟨_,_,_,hnot⟩
  · rw [hn] at htiles
    rw [hr]
    obtain rfl := ht.eq
    obtain ⟨gap,tile,rest,rfl,hbefore,htoken⟩ := htiles
    obtain ⟨hfit,hrest⟩ : tile.Fits (spell rest) ∧ Tiled rest := h.tiled.of_append
    have hcontent : f.content = (before ++ spell gap) ++ (tile.bytes ++ spell rest) := by
      rw [h.content,spell_append,spell_cons,List.append_assoc]
    refine ⟨gap,tile,rest,⟨?_,hrest,c',hm',?_⟩,hfit,hcontent,?_⟩
    · rw [hcontent,List.append_assoc (before ++ spell gap)]
    · rw [Position.pastAll_append,Position.pastAll_append]
      exact hbefore
    · rw [SourceFile.positionAt_length hcontent,Position.pastAll_append]
      exact htoken
  · rw [hr,hn] at hsame
    rw [hn] at htiles
    rw [hr]
    refine ⟨(List.append_nil _).symm,trivial,c',hsame trivial,?_⟩
    rw [h.content,Position.pastAll_append]
    exact htiles
  · exact absurd trivial hnot

theorem behind (h : f.OnTiles z.source before tiles) (ha : TokenStream.advance z = .token t z') (ht : t.LooksAhead)
    {x : UInt8 × Position} (hx : z'.source.held = some x) : f.Behind z.lexicon t x z'.source := by
  have hstep := h.advance
  rw [ha] at hstep
  obtain ⟨gap,tile,rest,hafter,hfit,hcontent,htoken⟩ := hstep
  have hkind : t.kind ≠ .terminator := by
    intro hk
    rcases ht with hk' | hk' | hk' <;> exact absurd (hk.symm.trans hk') (by decide)
  have htoken := htoken.resolve_right hkind
  have hpos := pos_of_token? htoken
  obtain ⟨more,hmore,hplace⟩ := hafter.of_held hx
  rw [hmore] at hfit hcontent
  exact ⟨before ++ spell gap,tile,more,hcontent,hfit,hpos ▸ htoken,hpos,hplace,hafter.upcoming.trans hmore⟩

end SourceFile.OnTiles

end Runs

namespace Watched

variable {f : SourceFile} {lexicon : Lexicon} {z z' : Scanner Watched}

/-- The readings so far have lost nothing, and have come to a place between two tiles. -/
structure Sound (f : SourceFile) (lexicon : Lexicon) (z : Scanner Watched) : Prop where
  lexicon : z.lexicon = lexicon
  lost : z.source.lost = []
  onTiles : ∃ before tiles, f.OnTiles z.source.reader before tiles

/-- What a reading leaves: nothing is lost, and a byte is held only behind the bytes of a token that looks ahead. It is the
one given last then. -/
def Settled (f : SourceFile) (lexicon : Lexicon) : Reading (Scanner Watched) → Prop
  | .token t z => z.source.lost = [] ∧ ∀ x ∈ z.source.reader.held, z.source.last = some x ∧ z.source.reader.here = x.2 ∧
      t.LooksAhead ∧ f.Behind lexicon t x z.source.reader
  | .endOfInput _ z => z.source.lost = [] ∧ z.source.reader.held = none

theorem sound_start (f : SourceFile) (lexicon : Lexicon) :
    Sound f lexicon (.ofSource (start f.reader) lexicon) :=
  ⟨rfl,rfl,[],f.exists_onTiles⟩

theorem lexicon_advance (z : Scanner Watched) : (advance z).rest.lexicon = z.lexicon := by
  change z.advance.rest.lexicon = _
  unfold Scanner.advance
  split <;> rfl

theorem Sound.advance (h : Sound f lexicon z) :
    Settled f lexicon (advance z) ∧ Sound f lexicon (advance z).rest := by
  obtain ⟨hlexicon,hlost,before,tiles,htiles⟩ := h
  have hlexicon' := (lexicon_advance z).trans hlexicon
  have hreturns := returns_advance z
  have hreader := (advance_unwatched z).symm
  have hstep := SourceFile.OnTiles.advance (z := unwatched z) htiles
  rw [hreader] at hstep
  cases ha : TokenStream.advance z with
  | token t z' =>
    rw [ha] at hreturns hreader hstep hlexicon'
    obtain ⟨⟨hkept,hlast⟩,hlook⟩ := hreturns
    obtain ⟨gap,tile,rest,hafter,-⟩ := hstep
    refine ⟨⟨hkept.trans hlost,?_⟩,hlexicon',hkept.trans hlost,_,_,hafter⟩
    intro x hx
    obtain ⟨hlast,hhere⟩ := hlast x hx
    have hlook : t.LooksAhead := hlook.resolve_left (by rw [Option.mem_def.mp hx]; exact Option.some_ne_none x)
    have hbehind := SourceFile.OnTiles.behind (z := unwatched z) htiles hreader hlook hx
    exact ⟨hlast,hhere,hlook,hlexicon ▸ hbehind⟩
  | endOfInput left z' =>
    rw [ha] at hreturns hstep hlexicon'
    obtain ⟨hkept,hheld⟩ := hreturns
    exact ⟨⟨hkept.trans hlost,hheld⟩,hlexicon',hkept.trans hlost,_,_,hstep⟩

theorem Sound.afterReadings (h : Sound f lexicon z) (n : Nat) : Sound f lexicon (afterReadings n z) := by
  induction n generalizing z with
  | zero => exact h
  | succ n ih => exact ih h.advance.2

theorem unwatched_afterReadings (n : Nat) (z : Scanner Watched) :
    unwatched (afterReadings n z) = afterReadings n (unwatched z) := by
  induction n generalizing z with
  | zero => rfl
  | succ n ih =>
    have hrest : (advance (unwatched z)).rest = unwatched (advance z).rest := by
      rw [← advance_unwatched]
      cases advance z <;> rfl
    rw [afterReadings,afterReadings,ih,hrest]

end Watched

/-- Whatever has been read of a file before, and however many readings have failed, a reading loses no byte by taking
another one back: what it gives is what it gives unwatched, and it leaves a byte held only if that is the byte given last, at
its own place right behind the bytes of a word or a slash, with the rest of the content to come after it. So it is no
blank that has replaced a comment. A reading that fails leaves nothing held. -/
theorem held_byte_settled (f : SourceFile) (lexicon : Lexicon) (n : Nat) :
    let z := afterReadings n (Scanner.ofSource (Watched.start f.reader) lexicon)
    Watched.Settled f lexicon (advance z) ∧
      (advance z).map Watched.unwatched = advance (afterReadings n (Scanner.ofSource f.reader lexicon)) := by
  intro z
  have hsound := (Watched.sound_start f lexicon).afterReadings n
  refine ⟨hsound.advance.1,?_⟩
  rw [Watched.advance_unwatched,Watched.unwatched_afterReadings]
  rfl

def slashSample : SourceFile := ⟨[97,47,42,42,47,98]⟩

def slashHeld : Watched :=
  ⟨⟨[42,42,47,98],some (Byte.slash,⟨1,1⟩),⟨1,1⟩,⟨1,2⟩,true⟩,some (Byte.slash,⟨1,1⟩),[]⟩

theorem nextToken_slashSample (lexicon : Lexicon) :
    nextToken lexicon false (Watched.start slashSample.reader) = .token (.ofWord lexicon [97] ⟨1,0⟩) slashHeld := by
  have hblanks : afterBlanks false (Watched.start slashSample.reader) = _ := afterBlanks_some rfl
  rw [if_neg (by decide),if_neg (by decide)] at hblanks
  have hword : ∀ w : Watched, lexeme lexicon 97 w =
      .token (.ofWord lexicon (readWord [97] w).text (lastPosition w)) (readWord [97] w).rest := fun _ => rfl
  have hnext : nextToken lexicon false (Watched.start slashSample.reader) = _ := nextToken_byte hblanks
  rw [hword,readWord_some rfl,if_neg (by decide)] at hnext
  exact hnext

theorem advance_slashSample (lexicon : Lexicon) :
    advance (Scanner.ofSource (Watched.start slashSample.reader) lexicon) =
      .token (.ofWord lexicon [97] ⟨1,0⟩) ⟨slashHeld,lexicon,(Token.ofWord lexicon [97] ⟨1,0⟩).kind⟩ := by
  have hnext : nextToken lexicon TokenKind.absent.mayEndStatement (Watched.start slashSample.reader) = _ :=
    nextToken_slashSample lexicon
  change Scanner.advance _ = _
  unfold Scanner.advance Scanner.ofSource
  rw [hnext]

theorem held_byte_settled_slash : ∃ t z',
    advance (Scanner.ofSource (Watched.start slashSample.reader) .standard) = .token t z' ∧
      z'.source.reader.held = some (Byte.slash,⟨1,1⟩) ∧ z'.source.last = some (Byte.slash,⟨1,1⟩) ∧
      slashSample.Behind .standard t (Byte.slash,⟨1,1⟩) z'.source.reader := by
  have ha := advance_slashSample .standard
  have hsettled := (held_byte_settled slashSample .standard 0).1
  rw [afterReadings,ha] at hsettled
  obtain ⟨hlast,-,-,hbehind⟩ := hsettled.2 _ rfl
  exact ⟨_,_,ha,rfl,hlast,hbehind⟩

end SourceTags
