import SourceTags.Proofs.TileScanning

/-! # Every source is tiled

A source that is empty or ends in a newline is a row of tiles, for whatever starts at a byte has an end: a
line comment ends with the last newline at the latest, and so no slash, less-than sign or backslash stands
at the end of the source. The content of a file is such a source.
-/
namespace SourceTags

/-- The bytes end in a newline, if there are any. -/
def EndsLine (bytes : List UInt8) : Prop := ∀ b ∈ bytes.getLast?, b = Byte.newline

variable {b : UInt8} {bytes rest : List UInt8}

theorem EndsLine.of_append {first : List UInt8} (h : EndsLine (first ++ rest)) : EndsLine rest := by
  intro b hb
  apply h b
  rw [List.getLast?_append,Option.mem_def.mp hb]
  rfl

theorem EndsLine.of_cons (h : EndsLine (b :: rest)) : EndsLine rest := by
  rw [← List.singleton_append] at h
  exact h.of_append

theorem EndsLine.newline_mem (h : EndsLine (b :: rest)) : Byte.newline ∈ b :: rest := by
  have hb := h _ (List.getLast_mem_getLast? (List.cons_ne_nil b rest))
  rw [← hb]
  exact List.getLast_mem ..

theorem EndsLine.next (h : EndsLine (b :: rest)) (hb : b ≠ Byte.newline) : ∃ x more, rest = x :: more := by
  cases rest with
  | nil => exact absurd (h b rfl) hb
  | cons x more => exact ⟨x,more,rfl⟩

theorem SourceFile.endsLine_content (f : SourceFile) : EndsLine f.content := by
  intro b hb
  unfold content at hb
  split at hb
  · simpa using hb.symm
  · next hl =>
    have hne : f.body.isEmpty = false := by
      cases hbody : f.body with
      | nil => simp [hbody] at hb
      | cons => rfl
    rw [lacksNewline,hne,Option.mem_def.mp hb] at hl
    simpa using hl

/-- A text that has a closer is cut at the first one. -/
theorem exists_closer {text : List UInt8} (h : Tile.closer <:+: text) :
    ∃ before after, text = before ++ (Tile.closer ++ after) ∧ ¬Tile.closer <:+: before ++ [Byte.star] := by
  induction text with
  | nil => simp [Tile.closer] at h
  | cons x text ih =>
    by_cases hp : Tile.closer <+: x :: text
    · obtain ⟨after,ha⟩ := hp
      refine ⟨[],after,ha.symm,?_⟩
      intro hi
      exact absurd hi.length_le (by decide)
    · obtain ⟨before,after,rfl,hno⟩ := ih ((List.infix_cons_iff.mp h).resolve_left hp)
      refine ⟨x :: before,after,rfl,?_⟩
      intro hi
      rcases List.infix_cons_iff.mp hi with hi | hi
      · apply hp
        refine hi.trans ?_
        exact ⟨Byte.slash :: after,by simp [Tile.closer]⟩
      · exact hno hi

theorem exists_body {delimiter : UInt8} (h : EndsLine bytes) (hd : Byte.isDelimiter delimiter = true) :
    ∃ (body : List LiteralByte) (closed : Bool) (rest : List UInt8), bytes =
      body.flatMap LiteralByte.bytes ++ (if closed then [delimiter] else []) ++ rest ∧ (∀ u ∈ body, u.Fits delimiter) ∧
      (closed = false → rest = []) := by
  induction hn : bytes.length using Nat.strongRecOn generalizing bytes with
  | ind n ih =>
    cases bytes with
    | nil => exact ⟨[],false,[],rfl,by simp,fun _ => rfl⟩
    | cons x more =>
      by_cases hx : x = Byte.backslash ∧ delimiter ≠ Byte.backtick
      · obtain ⟨rfl,hq⟩ := hx
        obtain ⟨y,more,rfl⟩ := h.next (by decide)
        have hlt : more.length < n := by
          rw [← hn,List.length_cons,List.length_cons]
          omega
        obtain ⟨body,closed,rest,rfl,hbody,hrest⟩ := ih more.length hlt h.of_cons.of_cons rfl
        refine ⟨.escaped y :: body,closed,rest,rfl,?_,hrest⟩
        rintro u (_ | ⟨_,hu⟩)
        · exact hq
        · exact hbody u hu
      · by_cases he : x = delimiter
        · subst he
          exact ⟨[],true,more,rfl,by simp,by simp⟩
        · have hlt : more.length < n := by
            rw [← hn,List.length_cons]
            omega
          obtain ⟨body,closed,rest,rfl,hbody,hrest⟩ := ih more.length hlt h.of_cons rfl
          refine ⟨.plain x :: body,closed,rest,rfl,?_,hrest⟩
          rintro u (_ | ⟨_,hu⟩)
          · exact ⟨he,fun hb => Decidable.byContradiction fun hq => hx ⟨hb,hq⟩⟩
          · exact hbody u hu

theorem exists_slash (h : EndsLine (Byte.slash :: bytes)) :
    ∃ t rest, Byte.slash :: bytes = Tile.bytes t ++ rest ∧ t.Fits rest := by
  obtain ⟨x,more,rfl⟩ := h.next (by decide)
  by_cases hs : x = Byte.slash
  · subst hs
    have hmem : Byte.newline ∈ more := by
      have hm := h.of_cons.newline_mem
      rw [List.mem_cons] at hm
      exact hm.resolve_left (by decide)
    obtain ⟨text,rest,rfl,ht⟩ := List.eq_append_cons_of_mem hmem
    exact ⟨.lineComment text,rest,by simp [Tile.bytes],ht⟩
  by_cases ht : x = Byte.star
  · subst ht
    by_cases hc : Tile.closer <:+: more
    · obtain ⟨text,rest,rfl,hno⟩ := exists_closer hc
      exact ⟨.blockComment text true,rest,by simp [Tile.bytes,Tile.closer],hno⟩
    · exact ⟨.blockComment more false,[],by simp [Tile.bytes],hc,rfl⟩
  · refine ⟨.slash,x :: more,rfl,?_⟩
    rintro b hb
    obtain rfl := Option.some.inj hb
    exact ⟨hs,ht⟩

theorem exists_tile (h : EndsLine (b :: bytes)) : ∃ t rest, b :: bytes = Tile.bytes t ++ rest ∧ t.Fits rest := by
  by_cases hb : Byte.isBlank b = true
  · exact ⟨.blank b,bytes,rfl,hb⟩
  by_cases hs : b = Byte.slash
  · subst hs
    exact exists_slash h
  by_cases hl : b = Byte.less
  · subst hl
    obtain ⟨x,more,rfl⟩ := h.next (by decide)
    by_cases hx : x = Byte.dash
    · subst hx
      exact ⟨.arrow,more,rfl,trivial⟩
    · exact ⟨.dropped x,more,rfl,hx⟩
  by_cases hd : Byte.isDelimiter b = true
  · obtain ⟨body,closed,rest,rfl,hbody,hrest⟩ := exists_body h.of_cons hd
    exact ⟨.literal b body closed,rest,rfl,hd,hbody,hrest⟩
  cases hp : TokenKind.ofByte? b with
  | some kind => exact ⟨.punctuation b kind,bytes,rfl,hp⟩
  | none =>
    refine ⟨.word b (bytes.takeWhile Byte.isWord),bytes.dropWhile Byte.isWord,?_,?_,?_,?_⟩
    · rw [Tile.bytes,List.cons_append,List.takeWhile_append_dropWhile]
    · exact ⟨by simpa using hb,hs,hl,by simpa using hd,hp⟩
    · intro x hx
      exact List.all_eq_true.mp List.all_takeWhile x hx
    · intro x hx
      have hne := List.head?_dropWhile_not Byte.isWord bytes
      rw [Option.mem_def.mp hx] at hne
      simpa using hne

/-- Every source that is empty or ends in a newline is a row of tiles. -/
theorem exists_tiles (h : EndsLine bytes) : ∃ tiles, Tile.Tiled tiles ∧ Tile.spell tiles = bytes := by
  induction hn : bytes.length using Nat.strongRecOn generalizing bytes with
  | ind n ih =>
    cases bytes with
    | nil => exact ⟨[],trivial,rfl⟩
    | cons b bytes =>
      obtain ⟨t,rest,hb,ht⟩ := exists_tile h
      rw [hb] at h hn ⊢
      have hlt : rest.length < n := by
        have := List.length_pos_iff.mpr t.bytes_ne_nil
        rw [← hn,List.length_append]
        omega
      obtain ⟨tiles,htiles,rfl⟩ := ih rest.length hlt h.of_append rfl
      exact ⟨t :: tiles,⟨ht,htiles⟩,rfl⟩

namespace Tile

variable {lexicon : Lexicon} {p : Position} {t : Tile} {u : Token} {tiles : List Tile} {ends : Bool}

theorem pos_of_token? (h : t.token? lexicon p = some u) : u.pos = p := by
  cases t <;> try contradiction
  all_goals obtain rfl := Option.some.inj h
  case word first more =>
    unfold Token.ofWord
    split <;> rfl
  all_goals rfl

theorem kind_of_token? (h : t.token? lexicon p = some u) (ht : t.Fits rest) : u.kind ≠ .terminator := by
  cases t <;> try contradiction
  all_goals obtain rfl := Option.some.inj h
  case word first more =>
    unfold Token.ofWord
    split <;> simp
  case punctuation b kind =>
    obtain ⟨before,after,hp,-⟩ := List.lookup_eq_some_iff.mp (show TokenKind.ofByte? b = some kind from ht)
    have hall : ∀ x ∈ TokenKind.punctuation, x.2 ≠ .terminator := by decide
    exact hall (b,kind) (hp ▸ by simp)
  all_goals simp [Token.bare]

theorem filter_tokens (ht : Tiled tiles) :
    (tokens lexicon ends p tiles).filter (·.kind != .terminator) = (lexemes lexicon p tiles).map Prod.snd := by
  induction tiles generalizing p ends with
  | nil => rfl
  | cons t tiles ih =>
    obtain ⟨hfit,htiles⟩ := ht
    rw [tokens,lexemes]
    cases hu : t.token? lexicon p with
    | some u =>
      have hk : (u.kind != .terminator) = true := bne_iff_ne.mpr (kind_of_token? hu hfit)
      dsimp only
      rw [List.filter_cons,if_pos hk,ih htiles]
      rfl
    | none =>
      dsimp only
      split
      · rw [List.filter_cons,if_neg (by simp [Token.bare]),ih htiles]
      · exact ih htiles

/-- A tile stands in the source where the position of its token says. -/
theorem lexemes_placed (ht : Tiled tiles) {x : Tile × Token} (hx : x ∈ lexemes lexicon p tiles) :
    ∃ before after, spell tiles = before ++ (x.1.bytes ++ after) ∧ x.1.Fits after ∧
      x.1.token? lexicon x.2.pos = some x.2 ∧ x.2.pos = p.pastAll before := by
  induction tiles generalizing p with
  | nil => contradiction
  | cons t tiles ih =>
    obtain ⟨hfit,htiles⟩ := ht
    have hlater : x ∈ lexemes lexicon (p.pastAll t.bytes) tiles →
        ∃ before after, spell (t :: tiles) = before ++ (x.1.bytes ++ after) ∧ x.1.Fits after ∧
          x.1.token? lexicon x.2.pos = some x.2 ∧ x.2.pos = p.pastAll before := by
      intro hx
      obtain ⟨before,after,hs,hf,hu,hp⟩ := ih htiles hx
      refine ⟨t.bytes ++ before,after,?_,hf,hu,?_⟩
      · rw [spell_cons,hs,List.append_assoc]
      · rw [hp,Position.pastAll_append]
    rw [lexemes] at hx
    cases hu : t.token? lexicon p with
    | some u =>
      rw [hu] at hx
      rcases List.mem_cons.mp hx with rfl | hx
      · exact ⟨[],spell tiles,rfl,hfit,(pos_of_token? hu).symm ▸ hu,by rw [pos_of_token? hu,Position.pastAll_nil]⟩
      · exact hlater hx
    | none =>
      rw [hu] at hx
      exact hlater hx

theorem lexemes_apart (ht : Tiled tiles) :
    (lexemes lexicon p tiles).Pairwise fun x y => x.2.pos.offset + x.1.bytes.length ≤ y.2.pos.offset := by
  induction tiles generalizing p with
  | nil => exact .nil
  | cons t tiles ih =>
    obtain ⟨-,htiles⟩ := ht
    rw [lexemes]
    cases hu : t.token? lexicon p with
    | none => exact ih htiles
    | some u =>
      refine .cons ?_ (ih htiles)
      intro y hy
      obtain ⟨before,_,-,-,-,hp⟩ := lexemes_placed htiles hy
      rw [pos_of_token? hu,hp]
      exact Nat.le_add_right _ _

end Tile

/-- The tiles are the layout of the file: they spell its content, and the tokens that its reader gives are theirs, each
where the tile stands and none reaching into the next. Tiles that spell no token are blanks, comments and
dropped pairs, so nothing else stands between tokens. -/
structure SourceFile.IsLayout (lexicon : Lexicon) (f : SourceFile) (tiles : List Tile) : Prop where
  tiled : Tile.Tiled tiles
  spells : Tile.spell tiles = f.content
  tokens : TokenStream.tokens (Scanner.ofSource f.reader lexicon) = Tile.tokens lexicon false ⟨1,f.start⟩ tiles
  lexemes : (TokenStream.tokens (Scanner.ofSource f.reader lexicon)).filter (·.kind != .terminator) =
    (Tile.lexemes lexicon ⟨1,f.start⟩ tiles).map Prod.snd
  apart : (Tile.lexemes lexicon ⟨1,f.start⟩ tiles).Pairwise fun x y =>
    x.2.pos.offset + x.1.bytes.length ≤ y.2.pos.offset
  placed : ∀ x ∈ Tile.lexemes lexicon ⟨1,f.start⟩ tiles, ∃ before after,
    f.content = before ++ (x.1.bytes ++ after) ∧ x.1.Fits after ∧ x.1.token? lexicon x.2.pos = some x.2 ∧
      x.2.pos = ⟨1 + before.count Byte.newline,f.start + before.length⟩

theorem SourceFile.isLayout {tiles : List Tile} {f : SourceFile} (ht : Tile.Tiled tiles)
    (hf : Tile.spell tiles = f.content) (lexicon : Lexicon) : f.IsLayout lexicon tiles where
  tiled := ht
  spells := hf
  tokens := tokens_tiles ht hf lexicon
  lexemes := by rw [tokens_reader,tokens_tiles ht hf lexicon,Tile.filter_tokens ht]
  apart := Tile.lexemes_apart ht
  placed := by
    intro x hx
    rw [← hf]
    exact Tile.lexemes_placed ht hx

/-- Every file has a layout. -/
theorem SourceFile.exists_layout (lexicon : Lexicon) (f : SourceFile) : ∃ tiles, f.IsLayout lexicon tiles := by
  obtain ⟨tiles,ht,hf⟩ := exists_tiles f.endsLine_content
  exact ⟨tiles,isLayout ht hf lexicon⟩

end SourceTags
