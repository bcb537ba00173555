import SourceTags.Proofs.Jump
import SourceTags.Proofs.TokenList

/-! # Sources in lockstep

Two sources go in lockstep when from related states they give the same bytes at related positions, and come
to related states whatever is asked of them. A scanner sees nothing else of its source, so it reads the same
tokens from both, up to the positions. The reader of a file goes in lockstep with the cursor over its content,
at the same positions: that the missing newline comes late makes no difference. So what the cursor's tokens
are, the reader's are, and the tags too.
-/
namespace SourceTags
open ByteSource

variable {σ υ : Type} [ByteSource σ] [ByteSource υ]

/-- The tokens agree in all but their positions, and these are related. -/
structure Token.AlikeAt (P : Position → Position → Prop) (t u : Token) : Prop where
  kind : t.kind = u.kind
  keyword : t.keyword = u.keyword
  text : t.text = u.text
  pos : P t.pos u.pos

theorem Token.AlikeAt.eq {t u : Token} (h : t.AlikeAt Eq u) : t = u := by
  obtain ⟨hkind,hkeyword,htext,hpos⟩ := h
  cases t
  cases u
  simp_all

theorem Token.alikeAt_ofWord {P : Position → Position → Prop} {p q : Position} (h : P p q) (lexicon : Lexicon)
    (text : List UInt8) : (Token.ofWord lexicon text p).AlikeAt P (.ofWord lexicon text q) := by
  unfold Token.ofWord
  split <;> exact ⟨rfl,rfl,rfl,h⟩

/-- From related states the sources give the same bytes, at positions that `P` relates. -/
structure Lockstep (P : Position → Position → Prop) (R : σ → υ → Prop) : Prop where
  next_none {s : σ} {u : υ} : R s u → next? s = none → next? u = none
  next_some {s s' : σ} {u : υ} {b : UInt8} : R s u → next? s = some (b,s') →
    ∃ u', next? u = some (b,u') ∧ R s' u'
  putBack {s : σ} {u : υ} (b : UInt8) : R s u → R (putBack b s) (putBack b u)
  skipPast {s : σ} {u : υ} (b : UInt8) : R s u → R (skipPast b s) (skipPast b u)
  position {s : σ} {u : υ} : R s u → P (lastPosition s) (lastPosition u)

section Results

variable (R : σ → υ → Prop)

omit [ByteSource σ] [ByteSource υ]

def AfterBlanks.Alike : AfterBlanks σ → AfterBlanks υ → Prop
  | terminator s, terminator u | endOfInput s, endOfInput u => R s u
  | byte b s, byte b' u => b = b' ∧ R s u
  | _, _ => False

variable {R} {s : σ} {b : UInt8} {a : AfterBlanks υ}

theorem AfterBlanks.Alike.of_endOfInput (h : Alike R (endOfInput s) a) : ∃ u, a = endOfInput u ∧ R s u := by
  cases a with
  | endOfInput u => exact ⟨u,rfl,h⟩
  | terminator | byte => exact h.elim

theorem AfterBlanks.Alike.of_terminator (h : Alike R (terminator s) a) : ∃ u, a = terminator u ∧ R s u := by
  cases a with
  | terminator u => exact ⟨u,rfl,h⟩
  | endOfInput | byte => exact h.elim

theorem AfterBlanks.Alike.of_byte (h : Alike R (byte b s) a) : ∃ u, a = byte b u ∧ R s u := by
  cases a with
  | byte _ u => exact ⟨u,h.1 ▸ rfl,h.2⟩
  | endOfInput | terminator => exact h.elim

variable (P : Position → Position → Prop) (R)

def BlockComment.Alike (c : BlockComment σ) (d : BlockComment υ) : Prop :=
  c.spansLines = d.spansLines ∧ R c.rest d.rest

def Run.Alike (r : Run σ) (q : Run υ) : Prop := r.text = q.text ∧ R r.rest q.rest

def Lexeme.Alike : Lexeme σ → Lexeme υ → Prop
  | token t s, token t' u => t.AlikeAt P t' ∧ R s u
  | trivia s, trivia u => R s u
  | _, _ => False

variable {P R} {t : Token} {l : Lexeme υ}

theorem Lexeme.Alike.of_token (h : Alike R P (token t s) l) : ∃ t' u, l = token t' u ∧ t.AlikeAt P t' ∧ R s u := by
  cases l with
  | token t' u => exact ⟨t',u,rfl,h.1,h.2⟩
  | trivia => exact h.elim

theorem Lexeme.Alike.of_trivia (h : Alike R P (trivia s) l) : ∃ u, l = trivia u ∧ R s u := by
  cases l with
  | trivia u => exact ⟨u,rfl,h⟩
  | token => exact h.elim

variable (R)

def Scanner.Alike (z : Scanner σ) (w : Scanner υ) : Prop :=
  R z.source w.source ∧ z.lexicon = w.lexicon ∧ z.previous = w.previous

end Results

namespace Lockstep

variable {P : Position → Position → Prop} {R : σ → υ → Prop} {s : σ} {u : υ}

theorem afterBlanks (step : Lockstep P R) (ends : Bool) (h : R s u) :
    AfterBlanks.Alike R (afterBlanks ends s) (SourceTags.afterBlanks ends u) := by
  fun_induction SourceTags.afterBlanks ends s generalizing u with
  | case1 s hn =>
    rw [afterBlanks_none (step.next_none h hn)]
    exact h
  | case2 s b rest hn ht =>
    obtain ⟨u',hu,hR⟩ := step.next_some h hn
    rw [afterBlanks_some hu,if_pos ht]
    exact hR
  | case3 s b rest hn ht hb ih =>
    obtain ⟨u',hu,hR⟩ := step.next_some h hn
    rw [afterBlanks_some hu,if_neg ht,if_pos hb]
    exact ih hR
  | case4 s b rest hn ht hb =>
    obtain ⟨u',hu,hR⟩ := step.next_some h hn
    rw [afterBlanks_some hu,if_neg ht,if_neg hb]
    exact ⟨rfl,hR⟩

theorem seekStar (step : Lockstep P R) (spans : Bool) (h : R s u) :
    BlockComment.Alike R (seekStar spans s) (SourceTags.seekStar spans u) := by
  fun_induction SourceTags.seekStar spans s generalizing u with
  | case1 spans s hn =>
    rw [seekStar_none (step.next_none h hn)]
    exact ⟨rfl,h⟩
  | case2 spans s rest hn =>
    obtain ⟨u',hu,hR⟩ := step.next_some h hn
    rw [seekStar_some hu,if_pos rfl]
    exact ⟨rfl,hR⟩
  | case3 spans s b rest hn hb ih =>
    obtain ⟨u',hu,hR⟩ := step.next_some h hn
    rw [seekStar_some hu,if_neg hb]
    exact ih hR

theorem closeBlockComment (step : Lockstep P R) (spans : Bool) (h : R s u) :
    BlockComment.Alike R (closeBlockComment spans s) (SourceTags.closeBlockComment spans u) := by
  fun_induction SourceTags.closeBlockComment spans s generalizing u with
  | case1 spans s hn =>
    have hstar := step.seekStar spans h
    rw [closeBlockComment_none (step.next_none hstar.2 hn)]
    exact hstar
  | case2 spans s rest hn =>
    have hstar := step.seekStar spans h
    obtain ⟨u',hu,hR⟩ := step.next_some hstar.2 hn
    rw [closeBlockComment_some hu,if_pos rfl]
    exact ⟨hstar.1,hR⟩
  | case3 spans s b rest hn hb ih =>
    have hstar := step.seekStar spans h
    obtain ⟨u',hu,hR⟩ := step.next_some hstar.2 hn
    rw [closeBlockComment_some hu,if_neg hb,← hstar.1]
    exact ih (step.putBack b hR)

theorem afterLineComment (step : Lockstep P R) (h : R s u) :
    R (afterLineComment s) (SourceTags.afterLineComment u) :=
  step.putBack _ (step.skipPast _ h)

theorem afterBlockComment (step : Lockstep P R) (h : R s u) :
    R (afterBlockComment s) (SourceTags.afterBlockComment u) := by
  have hclose := step.closeBlockComment false h
  unfold SourceTags.afterBlockComment
  dsimp only
  rw [← hclose.1]
  exact step.putBack _ hclose.2

theorem readLiteral (step : Lockstep P R) (delimiter : UInt8) (text : List UInt8) (h : R s u) :
    Run.Alike R (readLiteral delimiter text s) (SourceTags.readLiteral delimiter text u) := by
  fun_induction SourceTags.readLiteral delimiter text s generalizing u with
  | case1 text s hn =>
    rw [readLiteral_none (step.next_none h hn)]
    exact ⟨rfl,h⟩
  | case2 text s b rest hn hq hn' =>
    obtain ⟨u',hu,hR⟩ := step.next_some h hn
    rw [readLiteral_some hu,if_pos hq,step.next_none hR hn']
    exact ⟨rfl,hR⟩
  | case3 text s b rest hn hq escaped after hn' ih =>
    obtain ⟨u',hu,hR⟩ := step.next_some h hn
    obtain ⟨u'',hu',hR'⟩ := step.next_some hR hn'
    rw [readLiteral_some hu,if_pos hq,hu']
    exact ih hR'
  | case4 text s rest hn hq =>
    obtain ⟨u',hu,hR⟩ := step.next_some h hn
    rw [readLiteral_some hu,if_neg hq,if_pos rfl]
    exact ⟨rfl,hR⟩
  | case5 text s b rest hn hq hb ih =>
    obtain ⟨u',hu,hR⟩ := step.next_some h hn
    rw [readLiteral_some hu,if_neg hq,if_neg hb]
    exact ih hR

theorem readWord (step : Lockstep P R) (text : List UInt8) (h : R s u) :
    Run.Alike R (readWord text s) (SourceTags.readWord text u) := by
  fun_induction SourceTags.readWord text s generalizing u with
  | case1 text s hn =>
    rw [readWord_none (step.next_none h hn)]
    exact ⟨rfl,h⟩
  | case2 text s b rest hn hb ih =>
    obtain ⟨u',hu,hR⟩ := step.next_some h hn
    rw [readWord_some hu,if_pos hb]
    exact ih hR
  | case3 text s b rest hn hb =>
    obtain ⟨u',hu,hR⟩ := step.next_some h hn
    rw [readWord_some hu,if_neg hb]
    exact ⟨rfl,step.putBack b hR⟩

theorem lexemeAtSlash (step : Lockstep P R) (h : R s u) :
    Lexeme.Alike R P (lexemeAtSlash s) (SourceTags.lexemeAtSlash u) := by
  have hpos := step.position h
  unfold SourceTags.lexemeAtSlash
  cases hn : next? s with
  | none =>
    rw [step.next_none h hn]
    exact ⟨⟨rfl,rfl,rfl,hpos⟩,h⟩
  | some x =>
    obtain ⟨b,rest⟩ := x
    obtain ⟨u',hu,hR⟩ := step.next_some h hn
    rw [hu]
    dsimp only
    split
    · exact step.afterLineComment hR
    · split
      · exact step.afterBlockComment hR
      · exact ⟨⟨rfl,rfl,rfl,hpos⟩,step.putBack b hR⟩

theorem lexemeAtLess (step : Lockstep P R) (h : R s u) :
    Lexeme.Alike R P (lexemeAtLess s) (SourceTags.lexemeAtLess u) := by
  have hpos := step.position h
  unfold SourceTags.lexemeAtLess
  cases hn : next? s with
  | none =>
    rw [step.next_none h hn]
    exact h
  | some x =>
    obtain ⟨b,rest⟩ := x
    obtain ⟨u',hu,hR⟩ := step.next_some h hn
    rw [hu]
    dsimp only
    split
    · exact ⟨⟨rfl,rfl,rfl,hpos⟩,hR⟩
    · exact hR

theorem lexeme (step : Lockstep P R) (lexicon : Lexicon) (b : UInt8) (h : R s u) :
    Lexeme.Alike R P (lexeme lexicon b s) (SourceTags.lexeme lexicon b u) := by
  have hpos := step.position h
  unfold SourceTags.lexeme
  split
  · exact step.lexemeAtSlash h
  split
  · exact step.lexemeAtLess h
  split
  · have hrun := step.readLiteral b [] h
    exact ⟨⟨rfl,rfl,hrun.1,hpos⟩,hrun.2⟩
  split
  · exact ⟨⟨rfl,rfl,rfl,hpos⟩,h⟩
  · have hrun := step.readWord [b] h
    dsimp only
    rw [hrun.1]
    exact ⟨Token.alikeAt_ofWord hpos ..,hrun.2⟩

abbrev SameToken (_ : Lockstep P R) : Reading σ → Reading υ → Prop := Reading.Follows (Token.AlikeAt P) R R True

theorem nextToken (step : Lockstep P R) (lexicon : Lexicon) (ends : Bool) (h : R s u) :
    step.SameToken (nextToken lexicon ends s) (SourceTags.nextToken lexicon ends u) := by
  fun_induction SourceTags.nextToken lexicon ends s generalizing u with
  | case1 s rest hb =>
    have hblank := step.afterBlanks ends h
    rw [hb] at hblank
    obtain ⟨u',hu,hR⟩ := hblank.of_endOfInput
    rw [nextToken_endOfInput hu]
    exact fun _ => hR
  | case2 s rest hb =>
    have hblank := step.afterBlanks ends h
    rw [hb] at hblank
    obtain ⟨u',hu,hR⟩ := hblank.of_terminator
    rw [nextToken_terminator hu]
    exact ⟨⟨rfl,rfl,rfl,step.position hR⟩,hR⟩
  | case3 s b rest hb t after hl =>
    have hblank := step.afterBlanks ends h
    rw [hb] at hblank
    obtain ⟨u',hu,hR⟩ := hblank.of_byte
    have hlex := step.lexeme lexicon b hR
    rw [hl] at hlex
    obtain ⟨t',v,hv,ht,hR⟩ := hlex.of_token
    rw [nextToken_byte hu,hv]
    exact ⟨ht,hR⟩
  | case4 s b rest hb after hl ih =>
    have hblank := step.afterBlanks ends h
    rw [hb] at hblank
    obtain ⟨u',hu,hR⟩ := hblank.of_byte
    have hlex := step.lexeme lexicon b hR
    rw [hl] at hlex
    obtain ⟨v,hv,hR⟩ := hlex.of_trivia
    rw [nextToken_byte hu,hv]
    exact ih hR

theorem simulation (step : Lockstep P R) : Simulation (Token.AlikeAt P) (Scanner.Alike R) True where
  kind := Token.AlikeAt.kind
  keyword := Token.AlikeAt.keyword
  advance := by
    rintro z w ⟨hs,hl,hp⟩
    change Reading.Follows _ _ _ _ z.advance w.advance
    unfold Scanner.advance
    have hnext := step.nextToken z.lexicon z.previous.mayEndStatement hs
    rw [← hl,← hp]
    rcases hnext.cases with ⟨t,s',t',u',hz,hw,ht,hR⟩ | ⟨_,s',_,u',hz,hw⟩ | ⟨_,_,_,hnot⟩
    · rw [hz,hw]
      exact ⟨ht,hR,rfl,ht.kind⟩
    · rw [hz,hw]
      exact fun _ => trivial
    · exact absurd trivial hnot

theorem tokens_eq (step : Lockstep Eq R) (lexicon : Lexicon) (previous : TokenKind) (h : R s u) :
    TokenStream.tokens (⟨s,lexicon,previous⟩ : Scanner σ) =
      TokenStream.tokens (⟨u,lexicon,previous⟩ : Scanner υ) := by
  have hscanner : Scanner.Alike R ⟨s,lexicon,previous⟩ ⟨u,lexicon,previous⟩ := ⟨h,rfl,rfl⟩
  have halike := step.simulation.forall₂_tokens hscanner
  rw [← List.forall₂_eq_eq_eq]
  exact halike.imp fun _ _ ht => ht.eq

theorem tagSource_eq (step : Lockstep Eq R) (settings : TagSettings) (lexicon : Lexicon) (tags : Array Tag)
    (h : R s u) : tagSource settings lexicon tags s = tagSource settings lexicon tags u := by
  rw [tagSource_eq_tokens,tagSource_eq_tokens]
  exact congrArg _ (step.tokens_eq lexicon .absent h)

end Lockstep

/-- Where single bytes are read in lockstep, so are all bytes up to a target. -/
theorem ReadsThrough.lockstep {R : σ → υ → Prop}
    (hnone : ∀ {s u}, R s u → next? s = none → next? u = none)
    (hsome : ∀ {s s' u b}, R s u → next? s = some (b,s') → ∃ u', next? u = some (b,u') ∧ R s' u')
    {target : UInt8} {s s' : σ} {u : υ} (hs : ReadsThrough target s s') (h : R s u) :
    ∃ u', ReadsThrough target u u' ∧ R s' u' := by
  induction hs generalizing u with
  | atEnd hn => exact ⟨u,.atEnd (hnone h hn),h⟩
  | found hn =>
    obtain ⟨u',hu,hR⟩ := hsome h hn
    exact ⟨u',.found hu,hR⟩
  | passed hn hb _ ih =>
    obtain ⟨u',hu,hR⟩ := hsome h hn
    obtain ⟨v,hv,hR⟩ := ih hR
    exact ⟨v,.passed hu hb hv,hR⟩

/-- The cursor has before it what the reader has, the newline that is owed included. Where nothing is left
it does not matter where a next byte would stand. -/
structure Reader.Matches (r : Reader) (c : Cursor) : Prop where
  rest : c.rest = r.rest ++ if r.owesNewline then [Byte.newline] else []
  held : c.held = r.held
  here : c.here = r.here
  ahead : c.rest ≠ [] → c.ahead = r.ahead

namespace Reader.Matches

variable {r r' : Reader} {c : Cursor} {b : UInt8}

theorem next_none (h : r.Matches c) (hn : r.next? = none) : c.next? = none := by
  obtain ⟨rest,held,here,ahead,owes⟩ := r
  obtain ⟨hrest,hheld,-,-⟩ := h
  cases held with
  | some x => contradiction
  | none =>
    cases rest with
    | cons => contradiction
    | nil =>
      cases owes with
      | true => contradiction
      | false => simp [Cursor.next?,hrest,hheld]

theorem next_some (h : r.Matches c) (hn : r.next? = some (b,r')) :
    ∃ c', c.next? = some (b,c') ∧ r'.Matches c' := by
  obtain ⟨rest,held,here,ahead,owes⟩ := r
  obtain ⟨cheld,crest,chere,cahead⟩ := c
  obtain ⟨hrest,hheld,hhere,hahead⟩ := h
  dsimp only at hrest hheld hhere hahead
  subst hrest hheld hhere
  cases cheld with
  | some x =>
    cases hn
    exact ⟨_,rfl,rfl,rfl,rfl,hahead⟩
  | none =>
    cases rest with
    | cons b rest =>
      obtain rfl := hahead (by simp)
      cases hn
      exact ⟨_,rfl,rfl,rfl,rfl,fun _ => rfl⟩
    | nil =>
      cases owes with
      | false => contradiction
      | true =>
        obtain rfl := hahead (by simp)
        cases hn
        exact ⟨_,rfl,rfl,rfl,rfl,fun hne => absurd rfl hne⟩

theorem putBack (h : r.Matches c) (b : UInt8) : (r.putBack b).Matches (c.putBack b) where
  rest := h.rest
  held := by simp only [Cursor.putBack,Reader.putBack,h.here]
  here := h.here
  ahead := h.ahead

theorem lockstep : Lockstep Eq Reader.Matches where
  next_none := next_none
  next_some := next_some
  putBack b h := h.putBack b
  skipPast {r c} b h := by
    obtain ⟨c',hc,hm⟩ := (readsThrough_skipPast b r).lockstep next_none next_some h
    exact hc.unique (Cursor.readsThrough_skipPast b c) ▸ hm
  position h := h.here.symm

end Reader.Matches

namespace SourceFile

theorem owesNewline_reader (f : SourceFile) : f.reader.owesNewline = f.lacksNewline := by
  have hempty : decide (f.start < f.bytes.length) = !f.body.isEmpty := by
    rw [Bool.eq_iff_iff]
    simp [body]
  change (decide (f.start < f.bytes.length) && f.bytes.getLast? != some Byte.newline) = _
  rw [hempty,lacksNewline]
  cases hb : f.body.isEmpty with
  | true => rfl
  | false =>
    have hlt : f.start < f.bytes.length := by simpa [hb] using hempty
    rw [body,List.getLast?_drop,if_neg (by omega)]

theorem matches_reader (f : SourceFile) : f.reader.Matches f.cursor where
  rest := by
    rw [owesNewline_reader]
    change f.content = f.body ++ _
    unfold content
    split <;> simp_all
  held := rfl
  here := rfl
  ahead _ := rfl

/-- The cursor over the content of a file gives the tokens that its reader gives. -/
theorem tokens_cursor (f : SourceFile) (lexicon : Lexicon) :
    f.tokens lexicon = TokenStream.tokens (Scanner.ofSource f.cursor lexicon) :=
  Reader.Matches.lockstep.tokens_eq lexicon .absent f.matches_reader

end SourceFile

end SourceTags
