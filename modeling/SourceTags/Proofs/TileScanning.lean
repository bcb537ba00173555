import SourceTags.Proofs.Lockstep
import SourceTags.Proofs.Tile

/-! # Scanning tiles

A cursor passes a row of tiles one by one: a tile that spells a token gives it, and any other tile gives a
terminator or nothing. Between tiles a cursor may hold a byte back, but only the first that it has still
to give; the blank that replaces a comment never outlives the tile of the comment.
-/
namespace SourceTags
open ByteSource

namespace Cursor

/-- The cursor that has just given `b`, which stands at `p`. -/
def just (p : Position) (b : UInt8) (rest : List UInt8) : Cursor := ⟨none,rest,p,p.past b⟩

/-- The cursor has `bytes` still to give, from `p` on. It may hold back the first of them. -/
inductive Before (p : Position) : List UInt8 → Cursor → Prop
  | given {bytes here} : Before p bytes ⟨none,bytes,here,p⟩
  | held {b rest here} : Before p (b :: rest) ⟨some (b,p),rest,here,p.past b⟩

variable {p : Position} {b : UInt8} {bytes rest : List UInt8} {c : Cursor}

theorem before_just : Before (p.past b) rest (just p b rest) := .given

theorem Before.next_cons (h : Before p (b :: rest) c) : ByteSource.next? c = some (b,just p b rest) := by
  cases h <;> rfl

theorem Before.next_nil (h : Before p [] c) : ByteSource.next? c = none := by
  cases h
  rfl

theorem before_putBack : Before p (b :: rest) (ByteSource.putBack b (just p b rest)) := .held

theorem next_putBack (x : UInt8) : ByteSource.next? (ByteSource.putBack x (just p b rest)) = some (x,just p b rest) :=
  rfl

theorem skipPast_just (target : UInt8) {passed : List UInt8} (h : target ∉ passed) :
    ByteSource.skipPast target (just p b (passed ++ target :: rest)) =
      just ((p.past b).pastAll passed) target rest := by
  have ht : ∀ x ∈ passed, (x != target) = true := by
    intro x hx
    simpa using fun he : x = target => h (he ▸ hx)
  have htake : (passed ++ target :: rest).takeWhile (· != target) = passed := by
    rw [List.takeWhile_append_of_pos ht]
    simp
  have hdrop : (passed ++ target :: rest).dropWhile (· != target) = target :: rest := by
    rw [List.dropWhile_append_of_pos ht]
    simp
  change Cursor.jump target (just p b (passed ++ target :: rest)) = _
  simp only [jump,just,htake,hdrop]

end Cursor
open Cursor

variable {p : Position} {b : UInt8} {bytes rest text : List UInt8} {c : Cursor}

theorem readWord_word {more : List UInt8} (hc : Before p (more ++ rest) c)
    (hm : ∀ b ∈ more, Byte.isWord b = true) (hr : ∀ b ∈ rest.head?, Byte.isWord b = false) (text : List UInt8) :
    ∃ c', readWord text c = ⟨text.reverse ++ more,c'⟩ ∧ Before (p.pastAll more) rest c' := by
  induction more generalizing p c text with
  | nil =>
    rw [Position.pastAll_nil,List.append_nil]
    cases rest with
    | nil => exact ⟨c,readWord_none hc.next_nil,hc⟩
    | cons b rest =>
      refine ⟨_,?_,before_putBack⟩
      rw [readWord_some hc.next_cons,if_neg (by simp [hr b rfl])]
  | cons b more ih =>
    have hb := hm b (List.mem_cons_self ..)
    obtain ⟨c',hread,hc'⟩ := ih before_just (fun x hx => hm x (List.mem_cons_of_mem _ hx)) (b :: text)
    refine ⟨c',?_,Position.pastAll_cons p b more ▸ hc'⟩
    rw [List.cons_append] at hc
    rw [readWord_some hc.next_cons,if_pos hb,hread]
    simp

section Literal

variable {delimiter b : UInt8}

theorem readLiteral_delimiter (hc : Before p (delimiter :: rest) c) (hd : Byte.isDelimiter delimiter = true)
    (text : List UInt8) : readLiteral delimiter text c = ⟨text.reverse,just p delimiter rest⟩ := by
  have hne : ¬(delimiter == Byte.backslash && delimiter != Byte.backtick) := by
    intro h
    simp only [Bool.and_eq_true,beq_iff_eq] at h
    rw [h.1] at hd
    exact absurd hd (by decide)
  rw [readLiteral_some hc.next_cons,if_neg hne,if_pos rfl]

theorem readLiteral_plain (hc : Before p (b :: rest) c) (hb : (LiteralByte.plain b).Fits delimiter) (text : List UInt8) :
    readLiteral delimiter text c = readLiteral delimiter (b :: text) (just p b rest) := by
  obtain ⟨hclose,hescape⟩ := hb
  have hne : ¬(b == Byte.backslash && delimiter != Byte.backtick) := by
    intro h
    simp only [Bool.and_eq_true,beq_iff_eq,bne_iff_ne] at h
    exact h.2 (hescape h.1)
  rw [readLiteral_some hc.next_cons,if_neg hne,if_neg hclose]

theorem readLiteral_escaped (hc : Before p (Byte.backslash :: b :: rest) c) (hd : delimiter ≠ Byte.backtick)
    (text : List UInt8) :
    readLiteral delimiter text c = readLiteral delimiter (b :: text) (just (p.past Byte.backslash) b rest) := by
  have hpos : (Byte.backslash == Byte.backslash && delimiter != Byte.backtick) = true := by simp [hd]
  have hnext : Before (p.past Byte.backslash) (b :: rest) (just p Byte.backslash (b :: rest)) := before_just
  rw [readLiteral_some hc.next_cons,if_pos hpos,hnext.next_cons]

theorem readLiteral_literal {body : List LiteralByte} {closed : Bool}
    (hc : Before p (body.flatMap LiteralByte.bytes ++ ((if closed then [delimiter] else []) ++ rest)) c)
    (hd : Byte.isDelimiter delimiter = true) (hb : ∀ u ∈ body, u.Fits delimiter)
    (hr : closed = false → rest = []) (text : List UInt8) :
    ∃ c', readLiteral delimiter text c = ⟨text.reverse ++ body.map LiteralByte.value,c'⟩ ∧
      Before (p.pastAll (body.flatMap LiteralByte.bytes ++ if closed then [delimiter] else [])) rest c' := by
  induction body generalizing p c text with
  | nil =>
    cases closed with
    | false =>
      obtain rfl := hr rfl
      exact ⟨c,by rw [readLiteral_none hc.next_nil]; simp,by simpa using hc⟩
    | true =>
      have hc : Before p (delimiter :: rest) c := hc
      refine ⟨just p delimiter rest,?_,(Position.pastAll_singleton p delimiter).symm ▸ before_just⟩
      rw [readLiteral_delimiter hc hd,List.map_nil,List.append_nil]
  | cons u body ih =>
    have hu := hb u (List.mem_cons_self ..)
    have hb' := fun v hv => hb v (List.mem_cons_of_mem u hv)
    let after := body.flatMap LiteralByte.bytes ++ ((if closed then [delimiter] else []) ++ rest)
    rw [List.flatMap_cons,List.append_assoc] at hc ⊢
    rw [Position.pastAll_append]
    cases u with
    | plain b =>
      have hc : Before p (b :: after) c := hc
      obtain ⟨c',hread,hc'⟩ := ih before_just hb' (b :: text)
      refine ⟨c',?_,(Position.pastAll_singleton p b).symm ▸ hc'⟩
      rw [readLiteral_plain hc hu,hread]
      simp [LiteralByte.value]
    | escaped b =>
      have hc : Before p (Byte.backslash :: b :: after) c := hc
      obtain ⟨c',hread,hc'⟩ := ih before_just hb' (b :: text)
      refine ⟨c',?_,?_⟩
      · rw [readLiteral_escaped hc hu,hread]
        simp [LiteralByte.value]
      · rw [LiteralByte.bytes,Position.pastAll_cons,Position.pastAll_singleton]
        exact hc'

end Literal

theorem seekStar_star (hc : Before p (text ++ Byte.star :: rest) c) (ht : Byte.star ∉ text) (spans : Bool) :
    seekStar spans c = ⟨spans || text.contains Byte.newline,just (p.pastAll text) Byte.star rest⟩ := by
  induction text generalizing p c spans with
  | nil =>
    rw [List.nil_append] at hc
    rw [seekStar_some hc.next_cons,if_pos rfl]
    simp
  | cons b text ih =>
    rw [List.mem_cons,not_or] at ht
    rw [List.cons_append] at hc
    rw [seekStar_some hc.next_cons,if_neg (Ne.symm ht.1),ih before_just ht.2,Position.pastAll_cons,
      List.contains_cons,Bool.or_assoc]
    simp [Bool.beq_comm]

/-- The cursor that has given all of `text` and has no more to give. -/
def drained (p : Position) (text : List UInt8) (c : Cursor) : Cursor :=
  match text.getLast? with
  | none => c
  | some b => just (p.pastAll text.dropLast) b []

theorem next_drained (hc : Before p text c) : ByteSource.next? (drained p text c) = none := by
  unfold drained
  cases h : text.getLast? with
  | none =>
    obtain rfl := List.getLast?_eq_none_iff.mp h
    exact hc.next_nil
  | some b => rfl

theorem drained_append (p : Position) (text : List UInt8) {more : List UInt8} (hm : more ≠ []) (c c' : Cursor) :
    drained p (text ++ more) c = drained (p.pastAll text) more c' := by
  obtain ⟨init,b,rfl⟩ := (List.eq_nil_or_concat more).resolve_left hm
  unfold drained
  rw [List.concat_eq_append,← List.append_assoc]
  simp [Position.pastAll_append]

theorem seekStar_drained (hc : Before p text c) (ht : Byte.star ∉ text) (spans : Bool) :
    seekStar spans c = ⟨spans || text.contains Byte.newline,drained p text c⟩ := by
  induction text generalizing p c spans with
  | nil =>
    rw [seekStar_none hc.next_nil]
    simp [drained]
  | cons b text ih =>
    rw [List.mem_cons,not_or] at ht
    rw [seekStar_some hc.next_cons,if_neg (Ne.symm ht.1),ih before_just ht.2,List.contains_cons,Bool.or_assoc]
    cases text with
    | nil => simp [drained,Bool.beq_comm]
    | cons x text =>
      rw [← Position.pastAll_singleton,← drained_append p [b] (List.cons_ne_nil x text) c]
      simp [Bool.beq_comm]

theorem head_of_no_closer {x : UInt8} {more : List UInt8} (h : ¬Tile.closer <:+: text ++ Byte.star :: x :: more) :
    x ≠ Byte.slash := by
  rintro rfl
  exact h ⟨text,more,by simp [Tile.closer]⟩

theorem no_closer_of_append {more : List UInt8} (h : ¬Tile.closer <:+: text ++ more) : ¬Tile.closer <:+: more :=
  fun hi => h (hi.trans (List.suffix_append text more).isInfix)

theorem contains_newline_star (u v : List UInt8) :
    (u ++ Byte.star :: v).contains Byte.newline = (u.contains Byte.newline || v.contains Byte.newline) := by
  have h : (Byte.newline == Byte.star) = false := by decide
  rw [List.contains_append,List.contains_cons,h,Bool.false_or]

theorem closeBlockComment_star {x : UInt8} {more : List UInt8} (hc : Before p (text ++ Byte.star :: x :: more) c)
    (ht : Byte.star ∉ text) (hx : x ≠ Byte.slash) (spans : Bool) :
    closeBlockComment spans c =
      closeBlockComment (spans || text.contains Byte.newline)
        (ByteSource.putBack x (just ((p.pastAll text).past Byte.star) x more)) := by
  have hseek := seekStar_star hc ht spans
  have hstar : Before ((p.pastAll text).past Byte.star) (x :: more) (just (p.pastAll text) Byte.star (x :: more)) :=
    before_just
  have hnext : ByteSource.next? (seekStar spans c).rest = some (x,just ((p.pastAll text).past Byte.star) x more) := by
    rw [hseek]
    exact hstar.next_cons
  rw [closeBlockComment_some hnext,if_neg hx,hseek]

/-- The text of a comment may end in stars, for a star is looked at again as the one that ends it. -/
theorem closeBlockComment_closed (hc : Before p (text ++ Byte.star :: Byte.slash :: rest) c)
    (ht : ¬Tile.closer <:+: text ++ [Byte.star]) (spans : Bool) :
    closeBlockComment spans c =
      ⟨spans || text.contains Byte.newline,just (p.pastAll (text ++ [Byte.star])) Byte.slash rest⟩ := by
  induction hn : text.length using Nat.strongRecOn generalizing text p c spans with
  | ind n ih =>
    by_cases hs : Byte.star ∈ text
    · obtain ⟨u,v,rfl,hu⟩ := List.eq_append_cons_of_mem hs
      obtain ⟨x,more,hx,hne⟩ : ∃ x more, v ++ Byte.star :: Byte.slash :: rest = x :: more ∧ x ≠ Byte.slash := by
        cases v with
        | nil => exact ⟨_,_,rfl,by decide⟩
        | cons x v =>
          rw [List.append_assoc,List.cons_append,List.cons_append] at ht
          exact ⟨x,_,rfl,head_of_no_closer ht⟩
      rw [List.append_assoc,List.cons_append,hx] at hc
      rw [List.append_assoc] at ht ⊢
      have hv : ¬Tile.closer <:+: v ++ [Byte.star] := by
        rw [← List.singleton_append,List.append_assoc] at ht
        exact no_closer_of_append (no_closer_of_append ht)
      have hheld : Before ((p.pastAll u).past Byte.star) (v ++ Byte.star :: Byte.slash :: rest)
          (ByteSource.putBack x (just ((p.pastAll u).past Byte.star) x more)) := hx ▸ before_putBack
      rw [closeBlockComment_star hc hu hne,ih v.length (by simp [← hn]; omega) hheld hv _ rfl,Position.pastAll_append p,
        List.cons_append,Position.pastAll_cons,contains_newline_star,Bool.or_assoc]
    · have hseek := seekStar_star hc hs spans
      have hstar : Before ((p.pastAll text).past Byte.star) (Byte.slash :: rest)
          (just (p.pastAll text) Byte.star (Byte.slash :: rest)) := before_just
      have hnext : ByteSource.next? (seekStar spans c).rest =
          some (Byte.slash,just ((p.pastAll text).past Byte.star) Byte.slash rest) := by
        rw [hseek]
        exact hstar.next_cons
      rw [closeBlockComment_some hnext,if_pos rfl,hseek,Position.pastAll_append,Position.pastAll_singleton]

theorem closeBlockComment_open (hc : Before p text c) (ht : ¬Tile.closer <:+: text) (spans : Bool) :
    closeBlockComment spans c = ⟨spans || text.contains Byte.newline,drained p text c⟩ := by
  induction hn : text.length using Nat.strongRecOn generalizing text p c spans with
  | ind n ih =>
    by_cases hs : Byte.star ∈ text
    · obtain ⟨u,v,rfl,hu⟩ := List.eq_append_cons_of_mem hs
      cases v with
      | nil =>
        have hseek := seekStar_star hc hu spans
        have hnext : ByteSource.next? (seekStar spans c).rest = none := by
          rw [hseek]
          exact Before.next_nil before_just
        rw [closeBlockComment_none hnext,hseek,contains_newline_star]
        simp [drained]
      | cons x more =>
        have hv : ¬Tile.closer <:+: x :: more := by
          rw [← List.singleton_append,← List.append_assoc] at ht
          exact no_closer_of_append ht
        have hheld : Before ((p.pastAll u).past Byte.star) (x :: more)
            (ByteSource.putBack x (just ((p.pastAll u).past Byte.star) x more)) := before_putBack
        rw [closeBlockComment_star hc hu (head_of_no_closer ht),
          ih (x :: more).length (by simp [← hn]; omega) hheld hv _ rfl]
        have hd := drained_append p (u ++ [Byte.star]) (List.cons_ne_nil x more) c
          (ByteSource.putBack x (just ((p.pastAll u).past Byte.star) x more))
        rw [Position.pastAll_append,Position.pastAll_singleton,List.append_assoc,List.singleton_append] at hd
        rw [hd,contains_newline_star,Bool.or_assoc]
    · have hseek := seekStar_drained hc hs spans
      have hnext : ByteSource.next? (seekStar spans c).rest = none := by
        rw [hseek]
        exact next_drained hc
      rw [closeBlockComment_none hnext,hseek]

section Next

variable {σ : Type} [ByteSource σ] {lexicon : Lexicon} {ends : Bool} {s s' : σ} {b : UInt8}

theorem nextToken_congr (h : afterBlanks ends s = afterBlanks ends s') :
    nextToken lexicon ends s = nextToken lexicon ends s' := by
  cases hs : afterBlanks ends s with
  | terminator rest => rw [nextToken_terminator hs,nextToken_terminator (h.symm.trans hs)]
  | byte b rest => rw [nextToken_byte hs,nextToken_byte (h.symm.trans hs)]
  | endOfInput rest => rw [nextToken_endOfInput hs,nextToken_endOfInput (h.symm.trans hs)]

theorem nextToken_blank (h : next? s = some (b,s')) (hb : Byte.isBlank b = true) :
    nextToken lexicon ends s = if ends && b == Byte.newline then .token (.bare .terminator (lastPosition s')) s'
      else nextToken lexicon ends s' := by
  have ha : afterBlanks ends s = _ := afterBlanks_some h
  split
  · next he =>
    rw [if_pos he] at ha
    exact nextToken_terminator ha
  · next he =>
    rw [if_neg he,if_pos hb] at ha
    exact nextToken_congr ha

theorem nextToken_lexeme (h : next? s = some (b,s')) (hb : Byte.isBlank b = false) :
    nextToken lexicon ends s = match lexeme lexicon b s' with
      | .token t after => .token t after
      | .trivia after => nextToken lexicon ends after := by
  have hn : ¬(ends && b == Byte.newline) = true := by
    intro he
    rw [Bool.and_eq_true,beq_iff_eq] at he
    rw [he.2] at hb
    exact absurd hb (by decide)
  have ha : afterBlanks ends s = _ := afterBlanks_some h
  rw [if_neg hn,if_neg (by simp [hb])] at ha
  exact nextToken_byte ha

end Next

theorem nextToken_putBack {lexicon : Lexicon} {ends : Bool} {x : UInt8} (hx : Byte.isBlank x = true) :
    nextToken lexicon ends (ByteSource.putBack x (just p b rest)) =
      if ends && x == Byte.newline then .token (.bare .terminator p) (just p b rest)
      else nextToken lexicon ends (just p b rest) :=
  nextToken_blank (next_putBack x) hx

theorem isBlank_delimiter {d : UInt8} (hd : Byte.isDelimiter d = true) :
    Byte.isBlank d = false ∧ d ≠ Byte.slash ∧ d ≠ Byte.less := by
  simp only [Byte.isDelimiter,Bool.or_eq_true,beq_iff_eq] at hd
  rcases hd with (rfl | rfl) | rfl <;> decide

theorem isBlank_punctuation {b : UInt8} {kind : TokenKind} (hb : TokenKind.ofByte? b = some kind) :
    Byte.isBlank b = false ∧ b ≠ Byte.slash ∧ b ≠ Byte.less ∧ Byte.isDelimiter b = false := by
  obtain ⟨before,after,hp,-⟩ := List.lookup_eq_some_iff.mp hb
  have hall : ∀ x ∈ TokenKind.punctuation, Byte.isBlank x.1 = false ∧ x.1 ≠ Byte.slash ∧ x.1 ≠ Byte.less ∧
      Byte.isDelimiter x.1 = false := by decide
  exact hall (b,kind) (hp ▸ by simp)

theorem lexeme_word {lexicon : Lexicon} (hb : Tile.StartsWord b) (c : Cursor) :
    lexeme lexicon b c = .token (.ofWord lexicon (readWord [b] c).text c.here) (readWord [b] c).rest := by
  obtain ⟨-,hs,hl,hd,hp⟩ := hb
  unfold lexeme
  rw [if_neg hs,if_neg hl,if_neg (by simp [hd]),hp]
  rfl

theorem lexeme_literal {lexicon : Lexicon} (hb : Byte.isDelimiter b = true) (c : Cursor) :
    lexeme lexicon b c = .token ⟨.string,none,(readLiteral b [] c).text,c.here⟩ (readLiteral b [] c).rest := by
  obtain ⟨-,hs,hl⟩ := isBlank_delimiter hb
  unfold lexeme
  rw [if_neg hs,if_neg hl,if_pos hb]
  rfl

theorem lexeme_punctuation {lexicon : Lexicon} {kind : TokenKind} (hb : TokenKind.ofByte? b = some kind) (c : Cursor) :
    lexeme lexicon b c = .token (.bare kind c.here) c := by
  obtain ⟨-,hs,hl,hd⟩ := isBlank_punctuation hb
  unfold lexeme
  rw [if_neg hs,if_neg hl,if_neg (by simp [hd]),hb]
  rfl

theorem lexeme_less {lexicon : Lexicon} (c : Cursor) : lexeme lexicon Byte.less c = lexemeAtLess c := by
  unfold lexeme
  rw [if_neg (by decide),if_pos rfl]

theorem lexeme_slash {lexicon : Lexicon} (c : Cursor) : lexeme lexicon Byte.slash c = lexemeAtSlash c := if_pos rfl

theorem lexemeAtSlash_slash (h : ∀ b ∈ rest.head?, b ≠ Byte.slash ∧ b ≠ Byte.star) :
    ∃ c', lexemeAtSlash (just p Byte.slash rest) = .token (.bare .forwardSlash p) c' ∧
      Before (p.past Byte.slash) rest c' := by
  have hj : Before (p.past Byte.slash) rest (just p Byte.slash rest) := before_just
  unfold lexemeAtSlash
  cases rest with
  | nil =>
    rw [hj.next_nil]
    exact ⟨_,rfl,hj⟩
  | cons b rest =>
    obtain ⟨hs,ht⟩ := h b rfl
    rw [hj.next_cons]
    dsimp only
    rw [if_neg hs,if_neg ht]
    exact ⟨_,rfl,before_putBack⟩

theorem lexemeAtSlash_lineComment (ht : Byte.newline ∉ text) :
    lexemeAtSlash (just p Byte.slash (Byte.slash :: (text ++ Byte.newline :: rest))) =
      .trivia (ByteSource.putBack Byte.newline
        (just (((p.past Byte.slash).past Byte.slash).pastAll text) Byte.newline rest)) := by
  have hj : Before (p.past Byte.slash) (Byte.slash :: (text ++ Byte.newline :: rest)) (just p Byte.slash _) :=
    before_just
  unfold lexemeAtSlash
  rw [hj.next_cons]
  dsimp only
  rw [if_pos rfl,afterLineComment,skipPast_just _ ht]

theorem lexemeAtSlash_blockComment :
    lexemeAtSlash (just p Byte.slash (Byte.star :: rest)) =
      .trivia (afterBlockComment (just (p.past Byte.slash) Byte.star rest)) := by
  have hj : Before (p.past Byte.slash) (Byte.star :: rest) (just p Byte.slash _) := before_just
  unfold lexemeAtSlash
  rw [hj.next_cons]
  dsimp only
  rw [if_neg (by decide),if_pos rfl]

theorem lexemeAtLess_just :
    lexemeAtLess (just p Byte.less (b :: rest)) =
      if b = Byte.dash then .token (.bare .leftArrow p) (just (p.past Byte.less) b rest)
      else .trivia (just (p.past Byte.less) b rest) := by
  have hj : Before (p.past Byte.less) (b :: rest) (just p Byte.less _) := before_just
  unfold lexemeAtLess
  rw [hj.next_cons]
  rfl

theorem drained_just (p : Position) (b : UInt8) (text : List UInt8) :
    ∃ x, drained (p.past b) text (just p b text) = just (p.pastAll (b :: text).dropLast) x [] ∧
      Before (p.pastAll (b :: text)) [] (just (p.pastAll (b :: text).dropLast) x []) := by
  rcases List.eq_nil_or_concat text with rfl | ⟨init,x,rfl⟩
  · refine ⟨b,?_,?_⟩
    · simp [drained]
    · rw [Position.pastAll_singleton]
      exact before_just
  · rw [List.concat_eq_append]
    have hdrop : (b :: (init ++ [x])).dropLast = b :: init := by
      rw [← List.cons_append,List.dropLast_concat]
    refine ⟨x,?_,?_⟩
    · rw [hdrop,Position.pastAll_cons]
      simp [drained]
    · rw [hdrop,← List.cons_append,Position.pastAll_append,Position.pastAll_singleton]
      exact before_just

theorem afterBlockComment_tile {closed : Bool} (ht : (Tile.blockComment text closed).Fits rest) :
    ∃ x, afterBlockComment (just p Byte.star ((text ++ if closed then Tile.closer else []) ++ rest)) =
        ByteSource.putBack (if text.contains Byte.newline then Byte.newline else Byte.space)
          (just (p.pastAll (Byte.star :: (text ++ if closed then Tile.closer else [])).dropLast) x rest) ∧
      Before (p.pastAll (Byte.star :: (text ++ if closed then Tile.closer else []))) rest
        (just (p.pastAll (Byte.star :: (text ++ if closed then Tile.closer else [])).dropLast) x rest) := by
  cases closed with
  | true =>
    have hclose : closeBlockComment false (just p Byte.star ((text ++ Tile.closer) ++ rest)) =
        ⟨text.contains Byte.newline,just ((p.past Byte.star).pastAll (text ++ [Byte.star])) Byte.slash rest⟩ := by
      rw [List.append_assoc]
      exact closeBlockComment_closed before_just ht false
    have hlast : Byte.star :: (text ++ Tile.closer) = (Byte.star :: (text ++ [Byte.star])) ++ [Byte.slash] := by
      simp [Tile.closer]
    refine ⟨Byte.slash,?_,?_⟩
    · unfold afterBlockComment
      simp only [if_true]
      rw [hclose,hlast,List.dropLast_concat,Position.pastAll_cons]
    · simp only [if_true]
      rw [hlast,List.dropLast_concat,Position.pastAll_append,Position.pastAll_singleton]
      exact before_just
  | false =>
    obtain ⟨hno,rfl⟩ := ht
    obtain ⟨x,hx,hb⟩ := drained_just p Byte.star text
    have hclose : closeBlockComment false (just p Byte.star text) =
        ⟨text.contains Byte.newline,drained (p.past Byte.star) text (just p Byte.star text)⟩ :=
      closeBlockComment_open before_just hno false
    refine ⟨x,?_,?_⟩
    · unfold afterBlockComment
      simp only [Bool.false_eq_true,if_false,List.append_nil]
      rw [hclose,hx]
    · simpa using hb

variable {t : Tile} {lexicon : Lexicon} {ends : Bool}

/-- A tile that spells a token is passed by reading that token. -/
theorem nextToken_token {u : Token} (hc : Before p (t.bytes ++ rest) c) (ht : t.Fits rest)
    (hu : t.token? lexicon p = some u) :
    ∃ c', nextToken lexicon ends c = .token u c' ∧ Before (p.pastAll t.bytes) rest c' := by
  cases t with
  | blank | lineComment | blockComment | dropped => contradiction
  | word first more =>
    obtain ⟨hfirst,hmore,hrest⟩ := ht
    obtain rfl := Option.some.inj hu
    obtain ⟨c',hread,hc'⟩ := readWord_word (before_just (p := p) (b := first)) hmore hrest [first]
    refine ⟨c',?_,Position.pastAll_cons p first more ▸ hc'⟩
    rw [nextToken_lexeme hc.next_cons hfirst.1,lexeme_word hfirst]
    change Reading.token (.ofWord lexicon (readWord [first] (just p first (more ++ rest))).text p)
      (readWord [first] (just p first (more ++ rest))).rest = _
    rw [hread]
    rfl
  | literal delimiter body closed =>
    obtain ⟨hd,hbody,hrest⟩ := ht
    obtain rfl := Option.some.inj hu
    rw [Tile.bytes,List.cons_append,List.append_assoc] at hc
    obtain ⟨c',hread,hc'⟩ := readLiteral_literal (before_just (p := p) (b := delimiter)) hd hbody hrest []
    refine ⟨c',?_,(Position.pastAll_cons p delimiter _).symm ▸ hc'⟩
    rw [nextToken_lexeme hc.next_cons (isBlank_delimiter hd).1,lexeme_literal hd]
    dsimp only
    rw [hread]
    rfl
  | punctuation b kind =>
    obtain rfl := Option.some.inj hu
    refine ⟨just p b rest,?_,(Position.pastAll_singleton p b).symm ▸ before_just⟩
    have hb : TokenKind.ofByte? b = some kind := ht
    rw [nextToken_lexeme (Before.next_cons hc) (isBlank_punctuation hb).1,lexeme_punctuation hb]
    rfl
  | slash =>
    obtain rfl := Option.some.inj hu
    obtain ⟨c',hlex,hc'⟩ := lexemeAtSlash_slash (p := p) ht
    refine ⟨c',?_,(Position.pastAll_singleton p Byte.slash).symm ▸ hc'⟩
    have hc : Before p (Byte.slash :: rest) c := hc
    rw [nextToken_lexeme hc.next_cons (by decide),lexeme_slash,hlex]
  | arrow =>
    obtain rfl := Option.some.inj hu
    have hc : Before p (Byte.less :: Byte.dash :: rest) c := hc
    refine ⟨just (p.past Byte.less) Byte.dash rest,?_,?_⟩
    · rw [nextToken_lexeme hc.next_cons (by decide),lexeme_less,lexemeAtLess_just,if_pos rfl]
    · rw [Tile.bytes,Position.pastAll_cons,Position.pastAll_singleton]
      exact before_just

/-- Any other tile is passed on the way to a token, or to the terminator that it is. -/
theorem nextToken_trivia (hc : Before p (t.bytes ++ rest) c) (ht : t.Fits rest)
    (hu : t.token? lexicon p = none) :
    ∃ c', Before (p.pastAll t.bytes) rest c' ∧ nextToken lexicon ends c =
      if ends && t.breaksLine then .token (.bare .terminator (p.pastAll t.bytes.dropLast)) c'
      else nextToken lexicon ends c' := by
  cases t with
  | word | literal | punctuation | slash | arrow => contradiction
  | blank b =>
    refine ⟨just p b rest,(Position.pastAll_singleton p b).symm ▸ before_just,?_⟩
    rw [nextToken_blank (Before.next_cons hc) ht]
    simp [Tile.breaksLine,Tile.bytes,just,lastPosition]
  | lineComment text =>
    rw [Tile.bytes,List.cons_append,List.cons_append,List.append_assoc] at hc
    have hdrop : (Tile.lineComment text).bytes.dropLast = Byte.slash :: Byte.slash :: text := by
      rw [Tile.bytes,← List.cons_append,← List.cons_append,List.dropLast_concat]
    refine ⟨just (((p.past Byte.slash).past Byte.slash).pastAll text) Byte.newline rest,?_,?_⟩
    · rw [Tile.bytes,← List.cons_append,← List.cons_append,Position.pastAll_append,Position.pastAll_singleton,
        Position.pastAll_cons,Position.pastAll_cons]
      exact before_just
    · rw [nextToken_lexeme hc.next_cons (by decide),lexeme_slash,List.singleton_append,lexemeAtSlash_lineComment ht]
      dsimp only
      rw [nextToken_putBack (by decide),hdrop,Position.pastAll_cons,Position.pastAll_cons]
      rfl
  | blockComment text closed =>
    obtain ⟨x,hafter,hx⟩ := afterBlockComment_tile (p := p.past Byte.slash) ht
    rw [← Position.pastAll_cons] at hx
    have hc : Before p (Byte.slash :: Byte.star :: ((text ++ if closed then Tile.closer else []) ++ rest)) c := hc
    refine ⟨_,hx,?_⟩
    rw [nextToken_lexeme hc.next_cons (by decide),lexeme_slash,lexemeAtSlash_blockComment,hafter]
    dsimp only
    rw [nextToken_putBack (by split <;> decide)]
    have hbreak : ((if text.contains Byte.newline then Byte.newline else Byte.space) == Byte.newline) =
        text.contains Byte.newline := by
      cases text.contains Byte.newline <;> rfl
    have hdrop : (Tile.blockComment text closed).bytes.dropLast =
        Byte.slash :: (Byte.star :: (text ++ if closed then Tile.closer else [])).dropLast := rfl
    rw [hbreak,hdrop,Position.pastAll_cons]
    rfl
  | dropped b =>
    have hc : Before p (Byte.less :: b :: rest) c := hc
    refine ⟨just (p.past Byte.less) b rest,?_,?_⟩
    · rw [Tile.bytes,Position.pastAll_cons,Position.pastAll_singleton]
      exact before_just
    · rw [nextToken_lexeme hc.next_cons (by decide),lexeme_less,lexemeAtLess_just,if_neg ht]
      simp [Tile.breaksLine]

theorem advance_scanner (lexicon : Lexicon) (previous : TokenKind) (c : Cursor) :
    TokenStream.advance (⟨c,lexicon,previous⟩ : Scanner Cursor) =
      match nextToken lexicon previous.mayEndStatement c with
      | .token t rest => .token t ⟨rest,lexicon,t.kind⟩
      | .endOfInput left rest => .endOfInput left ⟨rest,lexicon,previous⟩ := by
  change Scanner.advance _ = _
  unfold Scanner.advance
  cases nextToken lexicon previous.mayEndStatement c <;> rfl

theorem tokens_tiles {tiles : List Tile} {previous : TokenKind} (hc : Before p (Tile.spell tiles) c)
    (ht : Tile.Tiled tiles) :
    TokenStream.tokens (⟨c,lexicon,previous⟩ : Scanner Cursor) =
      Tile.tokens lexicon previous.mayEndStatement p tiles := by
  induction tiles generalizing p c previous with
  | nil =>
    have ha : afterBlanks previous.mayEndStatement c = .endOfInput c := afterBlanks_none hc.next_nil
    have hr := advance_scanner lexicon previous c
    rw [nextToken_endOfInput ha] at hr
    exact tokens_endOfInput hr
  | cons t tiles ih =>
    obtain ⟨hfit,htiles⟩ := ht
    rw [Tile.spell_cons] at hc
    have hr := advance_scanner lexicon previous c
    cases hu : t.token? lexicon p with
    | some u =>
      obtain ⟨c',hn,hc'⟩ := nextToken_token hc hfit hu
      rw [hn] at hr
      rw [tokens_token hr,ih hc' htiles,Tile.tokens,hu]
    | none =>
      obtain ⟨c',hc',hn⟩ := nextToken_trivia hc hfit hu
      rw [Tile.tokens,hu]
      dsimp only
      rw [hn] at hr
      by_cases he : (previous.mayEndStatement && t.breaksLine) = true
      · rw [if_pos he] at hr ⊢
        rw [tokens_token hr,ih hc' htiles]
        rfl
      · rw [if_neg he,← advance_scanner] at hr
        rw [if_neg he,tokens_congr hr,ih hc' htiles]

/-- The tokens of a file are those of any row of tiles that spells its content. -/
theorem SourceFile.tokens_tiles {tiles : List Tile} {f : SourceFile} (ht : Tile.Tiled tiles)
    (hf : Tile.spell tiles = f.content) (lexicon : Lexicon) :
    f.tokens lexicon = Tile.tokens lexicon false ⟨1,f.start⟩ tiles := by
  rw [f.tokens_cursor]
  exact SourceTags.tokens_tiles (hf ▸ .given) ht

end SourceTags
