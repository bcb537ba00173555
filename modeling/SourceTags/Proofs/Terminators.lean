import SourceTags.Proofs.Lockstep
import SourceTags.Proofs.TileRow

/-! # Where terminators stand

After a token comes a gap of blanks, comments and dropped pairs, up to the next token or to the end. It gives
one terminator or none: one if the token may end a statement and a newline is in the gap that is not dropped,
and then at the place of the first such newline, or at the end of the block comment that has it. By that no
terminator comes first and none follows another.
-/
namespace SourceTags

namespace Tile

def isTrivia : Tile → Bool
  | blank _ | lineComment _ | blockComment _ _ | dropped _ => true
  | word _ _ | literal _ _ _ | punctuation _ _ | slash | arrow => false

/-- The tile has a newline in it, and is no pair that is dropped. -/
def HasNewline (t : Tile) : Prop := Byte.newline ∈ t.bytes ∧ ∀ b, t ≠ dropped b

/-- A line break that the tile makes is reported at the byte that follows `text` in the tile: at the newline
itself, or at the last byte of a block comment. -/
inductive BreaksAfter : Tile → List UInt8 → Prop
  | newline : BreaksAfter (blank Byte.newline) []
  | lineComment (text : List UInt8) : BreaksAfter (lineComment text) (Byte.slash :: Byte.slash :: text)
  | closedComment (text : List UInt8) :
      BreaksAfter (blockComment text true) (Byte.slash :: Byte.star :: (text ++ [Byte.star]))
  | openComment (text : List UInt8) :
      BreaksAfter (blockComment text false) (Byte.slash :: Byte.star :: text).dropLast

variable {lexicon : Lexicon} {ends : Bool} {p : Position} {t : Tile} {tiles gap after : List Tile}

theorem token?_eq_none_iff : t.token? lexicon p = none ↔ t.isTrivia = true := by
  cases t <;> simp [token?,isTrivia]

theorem breaksLine_iff (h : t.isTrivia = true) : t.breaksLine = true ↔ t.HasNewline := by
  have hs : Byte.newline ≠ Byte.slash := by decide
  have ht : Byte.newline ≠ Byte.star := by decide
  cases t with
  | blank b => simpa [breaksLine,HasNewline,bytes] using eq_comm
  | lineComment text => simp [breaksLine,HasNewline,bytes]
  | blockComment text closed => cases closed <;> simp [breaksLine,HasNewline,bytes,hs,ht]
  | dropped b => simp [breaksLine,HasNewline]
  | word | literal | punctuation | slash | arrow => contradiction

theorem breaksAfter_dropLast (h : t.breaksLine = true) : t.BreaksAfter t.bytes.dropLast := by
  cases t with
  | blank b =>
    obtain rfl : b = Byte.newline := by simpa [breaksLine] using h
    exact .newline
  | lineComment text =>
    have hdrop : (lineComment text).bytes.dropLast = Byte.slash :: Byte.slash :: text := by
      rw [bytes,← List.cons_append,← List.cons_append,List.dropLast_concat]
    exact hdrop ▸ .lineComment text
  | blockComment text closed =>
    cases closed with
    | true =>
      have hbytes : (blockComment text true).bytes =
          (Byte.slash :: Byte.star :: (text ++ [Byte.star])) ++ [Byte.slash] := by simp [bytes]
      rw [hbytes,List.dropLast_concat]
      exact .closedComment text
    | false =>
      have hbytes : (blockComment text false).bytes = Byte.slash :: Byte.star :: text := by simp [bytes]
      rw [hbytes]
      exact .openComment text
  | dropped | word | literal | punctuation | slash | arrow => contradiction

theorem tokens_gap (hg : ∀ g ∈ gap, g.isTrivia = true) :
    (ends = true ∧ ∃ quiet g more, gap = quiet ++ g :: more ∧ (∀ x ∈ quiet, ¬x.HasNewline) ∧ g.HasNewline ∧
      tokens lexicon ends p (gap ++ after) = .bare .terminator (p.pastAll (spell quiet ++ g.bytes.dropLast)) ::
        tokens lexicon false (p.pastAll (spell gap)) after) ∨
    ((ends = false ∨ ∀ g ∈ gap, ¬g.HasNewline) ∧
      tokens lexicon ends p (gap ++ after) = tokens lexicon ends (p.pastAll (spell gap)) after) := by
  induction gap generalizing ends p with
  | nil => exact .inr ⟨.inr (by simp),by simp⟩
  | cons g gap ih =>
    obtain ⟨hfirst,hgap⟩ := List.forall_mem_cons.mp hg
    have htoken : g.token? lexicon p = none := token?_eq_none_iff.mpr hfirst
    rw [List.cons_append,spell_cons,Position.pastAll_append]
    by_cases hb : (ends && g.breaksLine) = true
    · obtain ⟨rfl,hbreak⟩ := Bool.and_eq_true_iff.mp hb
      refine .inl ⟨rfl,[],g,gap,rfl,by simp,(breaksLine_iff hfirst).mp hbreak,?_⟩
      rw [tokens_break htoken hbreak]
      rcases @ih false (p.pastAll g.bytes) hgap with ⟨hends,-⟩ | ⟨-,hrest⟩
      · contradiction
      · rw [hrest]
        rfl
    · have hno : ends = true → ¬g.HasNewline := by
        rintro rfl hnew
        exact hb ((breaksLine_iff hfirst).mpr hnew)
      rw [tokens_trivia htoken (by simpa using hb)]
      rcases @ih ends (p.pastAll g.bytes) hgap with
        ⟨hends,quiet,x,more,rfl,hquiet,hx,hrest⟩ | ⟨hquiet,hrest⟩
      · refine .inl ⟨hends,g :: quiet,x,more,rfl,?_,hx,?_⟩
        · exact List.forall_mem_cons.mpr ⟨hno hends,hquiet⟩
        · rw [hrest,spell_cons,List.append_assoc,Position.pastAll_append p]
      · refine .inr ⟨?_,hrest⟩
        cases ends with
        | false => exact .inl rfl
        | true => exact .inr (List.forall_mem_cons.mpr ⟨hno rfl,hquiet.resolve_left Bool.noConfusion⟩)

example : tokens .standard true ⟨1,1⟩ [.dropped Byte.newline,.blockComment [Byte.newline] true,.blank Byte.newline] =
    [.bare .terminator ⟨3,7⟩] := by decide

theorem lexemes_gap (hg : ∀ g ∈ gap, g.isTrivia = true) :
    lexemes lexicon p (gap ++ after) = lexemes lexicon (p.pastAll (spell gap)) after := by
  induction gap generalizing p with
  | nil => simp
  | cons g gap ih =>
    obtain ⟨hfirst,hgap⟩ := List.forall_mem_cons.mp hg
    rw [List.cons_append,spell_cons,Position.pastAll_append,lexemes,token?_eq_none_iff.mpr hfirst]
    exact ih hgap

theorem find?_tokens_gap (ht : Tiled (gap ++ after)) (hg : ∀ g ∈ gap, g.isTrivia = true)
    (ha : ∀ x ∈ after.head?, x.isTrivia = false) :
    (tokens lexicon ends p (gap ++ after)).find? (·.kind != .terminator) =
      after.head?.bind (token? lexicon (p.pastAll (spell gap))) := by
  rw [← List.head?_filter,filter_tokens ht,lexemes_gap hg]
  cases after with
  | nil => rfl
  | cons x after =>
    have hx : x.isTrivia = false := ha x rfl
    rw [lexemes]
    cases hu : x.token? lexicon (p.pastAll (spell gap)) with
    | some u => simp [hu]
    | none => rw [token?_eq_none_iff.mp hu] at hx; contradiction

theorem kind_of_head?_tokens (ht : Tiled tiles) (h : ends = false ∨ ∀ t ∈ tiles.head?, t.isTrivia = false) {u : Token}
    (hu : u ∈ (tokens lexicon ends p tiles).head?) : u.kind ≠ .terminator := by
  induction tiles generalizing p with
  | nil => contradiction
  | cons t tiles ih =>
    cases hv : t.token? lexicon p with
    | some v =>
      rw [tokens_token hv] at hu
      obtain rfl := Option.some.inj hu
      exact kind_of_token? hv ht.1
    | none =>
      have htrivia : t.isTrivia = true := token?_eq_none_iff.mp hv
      have hends : ends = false := by
        refine h.resolve_right ?_
        intro hall
        rw [hall t rfl] at htrivia
        contradiction
      subst hends
      rw [tokens_trivia hv rfl] at hu
      exact ih ht.2 (.inl rfl) hu

theorem terminator_head?_iff (hg : ∀ g ∈ gap, g.isTrivia = true) (ht : Tiled after)
    (ha : ∀ x ∈ after.head?, x.isTrivia = false) :
    (∃ e ∈ (tokens lexicon ends p (gap ++ after)).head?, e.kind = .terminator) ↔
      ends = true ∧ ∃ g ∈ gap, g.HasNewline := by
  rcases @tokens_gap lexicon ends p gap after hg with ⟨hends,quiet,g,more,rfl,-,hnew,hrest⟩ | ⟨hno,hrest⟩
  · rw [hrest]
    exact ⟨fun _ => ⟨hends,g,by simp,hnew⟩,fun _ => ⟨_,rfl,rfl⟩⟩
  · rw [hrest]
    constructor
    · rintro ⟨e,he,hk⟩
      exact absurd hk (kind_of_head?_tokens ht (.inr ha) he)
    · rintro ⟨rfl,g,hmem,hnew⟩
      exact absurd hnew (hno.resolve_left Bool.noConfusion g hmem)

theorem terminator_of_head? (hg : ∀ g ∈ gap, g.isTrivia = true) (ht : Tiled after)
    (ha : ∀ x ∈ after.head?, x.isTrivia = false) {e : Token}
    (he : e ∈ (tokens lexicon ends p (gap ++ after)).head?) (hk : e.kind = .terminator) :
    ∃ quiet g more, gap = quiet ++ g :: more ∧ (∀ x ∈ quiet, ¬x.HasNewline) ∧ g.HasNewline ∧
      e = .bare .terminator (p.pastAll (spell quiet ++ g.bytes.dropLast)) := by
  rcases @tokens_gap lexicon ends p gap after hg with ⟨-,quiet,g,more,hgap,hquiet,hnew,hrest⟩ | ⟨-,hrest⟩
  · rw [hrest] at he
    exact ⟨quiet,g,more,hgap,hquiet,hnew,(Option.some.inj he).symm⟩
  · rw [hrest] at he
    exact absurd hk (kind_of_head?_tokens ht (.inr ha) he)

/-- A tile of the row gives the token, if it is no terminator, and the tiles after it give the later tokens. -/
def GivesToken (lexicon : Lexicon) (p : Position) (tiles : List Tile) (a : Token) (later : List Token) : Prop :=
  ∃ before t rest, tiles = before ++ t :: rest ∧
    later = tokens lexicon a.kind.mayEndStatement (p.pastAll (spell before ++ t.bytes)) rest ∧
    (t.token? lexicon (p.pastAll (spell before)) = some a ∨ a.kind = .terminator)

theorem GivesToken.cons {a : Token} {later : List Token} (h : GivesToken lexicon (p.pastAll t.bytes) tiles a later) :
    GivesToken lexicon p (t :: tiles) a later := by
  obtain ⟨before,x,rest,rfl,hlater,hx⟩ := h
  refine ⟨t :: before,x,rest,rfl,?_,?_⟩
  · rw [spell_cons,List.append_assoc,Position.pastAll_append]
    exact hlater
  · rw [spell_cons,Position.pastAll_append]
    exact hx

theorem givesToken_of_tokens {earlier later : List Token} {a : Token}
    (h : tokens lexicon ends p tiles = earlier ++ a :: later) : GivesToken lexicon p tiles a later := by
  induction tiles generalizing ends p earlier with
  | nil => simp [tokens] at h
  | cons t tiles ih =>
    cases hv : t.token? lexicon p with
    | some v =>
      rw [tokens_token hv] at h
      cases earlier with
      | nil =>
        obtain ⟨rfl,rfl⟩ := List.cons.inj h
        exact ⟨[],t,tiles,rfl,rfl,.inl (by simpa using hv)⟩
      | cons x earlier => exact (ih (List.cons.inj h).2).cons
    | none =>
      cases hb : ends && t.breaksLine with
      | false =>
        rw [tokens_trivia hv hb] at h
        exact (ih h).cons
      | true =>
        obtain ⟨rfl,hbreak⟩ := Bool.and_eq_true_iff.mp hb
        rw [tokens_break hv hbreak] at h
        cases earlier with
        | nil =>
          obtain ⟨rfl,rfl⟩ := List.cons.inj h
          exact ⟨[],t,tiles,rfl,rfl,.inr rfl⟩
        | cons x earlier => exact (ih (List.cons.inj h).2).cons

theorem Tiled.of_append {more : List Tile} (h : Tiled (tiles ++ more)) : Tiled more := by
  induction tiles with
  | nil => exact h
  | cons t tiles ih => exact ih h.2

theorem kind_after_terminator {earlier later : List Token} {a e : Token} (ht : Tiled tiles)
    (h : tokens lexicon ends p tiles = earlier ++ a :: e :: later) (ha : a.kind = .terminator) :
    e.kind ≠ .terminator := by
  obtain ⟨before,t,rest,rfl,hlater,-⟩ := givesToken_of_tokens h
  have hrest : Tiled rest := ht.of_append.2
  rw [ha,TokenKind.mayEndStatement_terminator] at hlater
  have he : e ∈ (tokens lexicon false (p.pastAll (spell before ++ t.bytes)) rest).head? := by
    rw [← hlater]
    rfl
  exact kind_of_head?_tokens hrest (.inl rfl) he

end Tile
open Tile

/-- The tile `t` of a token, and the gap between it and the tile of the next token, or the end of the content. -/
structure SourceFile.Gap (lexicon : Lexicon) (f : SourceFile) (a : Token) (later : List Token) (before : List Tile)
    (t : Tile) (gap after : List Tile) : Prop where
  token : t.token? lexicon a.pos = some a
  place : a.pos = f.positionAt (spell before).length
  trivia : ∀ g ∈ gap, g.isTrivia = true
  ended : ∀ x ∈ after.head?, x.isTrivia = false
  next : later.find? (·.kind != .terminator) =
    after.head?.bind (token? lexicon (f.positionAt (spell (before ++ t :: gap)).length))

theorem SourceFile.positionAt_last {f : SourceFile} {tiles more : List Tile} {t : Tile}
    (hf : spell (tiles ++ t :: more) = f.content) :
    f.positionAt (spell tiles ++ t.bytes.dropLast).length =
      (⟨1,f.start⟩ : Position).pastAll (spell tiles ++ t.bytes.dropLast) := by
  have hlast : f.content = (spell tiles ++ t.bytes.dropLast) ++ ([t.bytes.getLast t.bytes_ne_nil] ++ spell more) := by
    rw [List.append_assoc,← List.append_assoc t.bytes.dropLast,List.dropLast_concat_getLast t.bytes_ne_nil,← hf,
      spell_append,spell_cons]
  exact positionAt_length hlast

/-- After every token that is no terminator comes a gap, and what follows the token is read off the tiles from
there on. -/
theorem SourceFile.exists_gap {lexicon : Lexicon} {f : SourceFile} {tiles : List Tile} (ht : Tiled tiles)
    (hf : spell tiles = f.content) {earlier later : List Token} {a : Token}
    (h : f.tokens lexicon = earlier ++ a :: later) (ha : a.kind ≠ .terminator) :
    ∃ before t gap after, tiles = before ++ t :: (gap ++ after) ∧ f.Gap lexicon a later before t gap after ∧
      Tiled after ∧ later = Tile.tokens lexicon a.kind.mayEndStatement
        ((⟨1,f.start⟩ : Position).pastAll (spell before ++ t.bytes)) (gap ++ after) := by
  rw [tokens_tiles ht hf] at h
  obtain ⟨before,t,rest,rfl,hlater,htoken⟩ := givesToken_of_tokens h
  have htoken := htoken.resolve_right ha
  have hrest : Tiled rest := ht.of_append.2
  obtain ⟨gap,after,rfl,hgap,hafter⟩ : ∃ gap after, rest = gap ++ after ∧ (∀ g ∈ gap, g.isTrivia = true) ∧
      ∀ x ∈ after.head?, x.isTrivia = false := by
    refine ⟨rest.takeWhile isTrivia,rest.dropWhile isTrivia,List.takeWhile_append_dropWhile.symm,?_,?_⟩
    · exact List.all_eq_true.mp List.all_takeWhile
    · intro x hx
      have hno := List.head?_dropWhile_not isTrivia rest
      rw [Option.mem_def.mp hx] at hno
      simpa using hno
  have hpos : a.pos = (⟨1,f.start⟩ : Position).pastAll (spell before) := pos_of_token? htoken
  have hplace : f.positionAt (spell before).length = (⟨1,f.start⟩ : Position).pastAll (spell before) :=
    positionAt_length (hf.symm.trans (spell_append ..))
  have hcontent : f.content = spell (before ++ t :: gap) ++ spell after := by
    rw [← hf,← spell_append,List.append_assoc,List.cons_append]
  have hnext : f.positionAt (spell (before ++ t :: gap)).length =
      ((⟨1,f.start⟩ : Position).pastAll (spell before ++ t.bytes)).pastAll (spell gap) := by
    rw [positionAt_length hcontent,spell_append,spell_cons,← List.append_assoc,Position.pastAll_append]
  refine ⟨before,t,gap,after,rfl,⟨hpos ▸ htoken,hpos.trans hplace.symm,hgap,hafter,?_⟩,hrest.of_append,hlater⟩
  rw [hnext,hlater]
  exact find?_tokens_gap hrest hgap hafter

/-- The rule of terminators. None comes first and none follows another. After any other token there is one
just where the token may end a statement and the gap has a newline that is not dropped, and it stands where the
first tile of the gap that has such a newline says. -/
theorem SourceFile.terminator_rule (lexicon : Lexicon) (f : SourceFile) :
    let ts := TokenStream.tokens (Scanner.ofSource f.reader lexicon)
    (∀ e ∈ ts.head?, e.kind ≠ .terminator) ∧
    (∀ earlier a e later, ts = earlier ++ a :: e :: later → a.kind = .terminator → e.kind ≠ .terminator) ∧
    (∃ tiles, Tiled tiles ∧ spell tiles = f.content) ∧
    ∀ tiles, Tiled tiles → spell tiles = f.content → ∀ earlier a later, ts = earlier ++ a :: later →
      a.kind ≠ .terminator → ∃ before t gap after, tiles = before ++ t :: (gap ++ after) ∧
        f.Gap lexicon a later before t gap after ∧
        ((∃ e ∈ later.head?, e.kind = .terminator) ↔
          a.kind.mayEndStatement = true ∧ ∃ g ∈ gap, g.HasNewline) ∧
        ∀ e ∈ later.head?, e.kind = .terminator → ∃ quiet g more text, gap = quiet ++ g :: more ∧
          (∀ x ∈ quiet, ¬x.HasNewline) ∧ g.HasNewline ∧ g.BreaksAfter text ∧
          e = .bare .terminator (f.positionAt (spell (before ++ t :: quiet) ++ text).length) := by
  obtain ⟨row,hrow,hspell⟩ := exists_tiles f.endsLine_content
  simp only [tokens_reader]
  refine ⟨?_,?_,⟨row,hrow,hspell⟩,?_⟩
  · intro e he
    rw [tokens_tiles hrow hspell] at he
    exact kind_of_head?_tokens hrow (.inl rfl) he
  · intro earlier a e later h ha
    rw [tokens_tiles hrow hspell] at h
    exact kind_after_terminator hrow h ha
  · intro tiles ht hf earlier a later h ha
    obtain ⟨before,t,gap,after,rfl,hgap,hafter,hlater⟩ := exists_gap ht hf h ha
    refine ⟨before,t,gap,after,rfl,hgap,?_⟩
    refine ⟨hlater ▸ terminator_head?_iff hgap.trivia hafter hgap.ended,?_⟩
    intro e he hk
    rw [hlater] at he
    obtain ⟨quiet,g,more,rfl,hquiet,hg,rfl⟩ := terminator_of_head? hgap.trivia hafter hgap.ended he hk
    have htrivia : g.isTrivia = true := hgap.trivia g (by simp)
    have hcut : spell ((before ++ t :: quiet) ++ g :: (more ++ after)) = f.content := by
      rw [← hf]
      simp only [List.append_assoc,List.cons_append]
    refine ⟨quiet,g,more,g.bytes.dropLast,rfl,hquiet,hg,breaksAfter_dropLast ((breaksLine_iff htrivia).mpr hg),?_⟩
    rw [positionAt_last hcut,← Position.pastAll_append]
    simp only [spell_append,spell_cons,List.append_assoc]

end SourceTags
