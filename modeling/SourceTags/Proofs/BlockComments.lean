import Mathlib.Order.Bounds.Basic
import SourceTags.Proofs.Comments
import SourceTags.Proofs.ContentPlace

/-! # Where block comments end

A block comment ends with the first star and slash, one right after the other, that come after its opening, or with
the content if these do not come. Where the search looks at a byte twice, after a star, it has taken back the byte
that it was given last, so that nothing is left held when it is over and the reader stands on the last byte
of the comment.
-/
namespace SourceTags
open ByteSource Tile

/-- So many bytes are the fewest that end with the end of a comment. -/
def ClosedAfter (bytes : List UInt8) : Nat → Prop := IsLeast {n | closer <:+ bytes.take n}

theorem closedAfter_append {text more : List UInt8} (h : ¬closer <:+: text ++ [Byte.star]) :
    ClosedAfter (text ++ (closer ++ more)) (text.length + closer.length) := by
  constructor
  · refine ⟨text,?_⟩
    rw [← List.append_assoc,← List.length_append,List.take_left]
  · intro n hn
    by_contra hlt
    apply h
    have hprefix : (text ++ (closer ++ more)).take n <+: text ++ [Byte.star] := by
      have hstar : text ++ (closer ++ more) = (text ++ [Byte.star]) ++ (Byte.slash :: more) := by simp [closer]
      rw [hstar,List.take_append_of_le_length (by simp [closer] at hlt ⊢; omega)]
      exact List.take_prefix ..
    exact hn.isInfix.trans hprefix.isInfix

namespace Place

variable {m m' : Place}

theorem length_rest (m : Place) : m.rest.length = m.file.content.length - m.given := List.length_drop ..

theorem given_of_rest {bytes : List UInt8} (hfile : m'.file = m.file) (h : m.rest = bytes ++ m'.rest) :
    m'.given = m.given + bytes.length := by
  have hlength := congrArg List.length h
  have hle := m.given_le
  have hle' := m'.given_le
  rw [List.length_append,length_rest,length_rest] at hlength
  rw [hfile] at hle' hlength
  omega

theorem upcoming_reader (hh : m.held = none) : m.reader.upcoming = m.rest := by
  obtain ⟨f,given,held,hle⟩ := m
  obtain rfl : held = none := hh
  have hlength := f.length_content
  have howed : (if (f.lacksNewline && decide (given < f.content.length)) = true then [Byte.newline] else []) =
      (if f.lacksNewline then [Byte.newline] else []).drop (given - f.body.length) := by
    cases hl : f.lacksNewline with
    | false => simp
    | true =>
      rw [hl,Bool.toNat_true,← f.length_body] at hlength
      by_cases hlt : given < f.content.length
      · have hzero : given - f.body.length = 0 := by omega
        simp [hlt,hzero]
      · have hone : given - f.body.length = 1 := by omega
        simp [hlt,hone]
  change f.bytes.drop (f.start + given) ++ _ = f.content.drop given
  rw [f.content_eq,List.drop_append,← howed,← List.drop_drop]
  rfl

theorem of_cursor {c : Cursor} {bytes : List UInt8} (hc : c = m'.cursor) (hheld : c.held = none)
    (hfile : m'.file = m.file) (hrest : m.rest = bytes ++ c.rest) : m'.held = none ∧ m'.given = m.given + bytes.length := by
  subst hc
  exact ⟨Option.map_eq_none_iff.mp hheld,given_of_rest hfile hrest⟩

theorem held_drained {p : Position} {text : List UInt8} {c : Cursor} (hc : Cursor.Before p text c)
    (hheld : c.held = none) : (drained p text c).held = none ∧ (drained p text c).rest = [] := by
  unfold drained
  cases ht : text.getLast? with
  | some b => exact ⟨rfl,rfl⟩
  | none =>
    obtain rfl := List.getLast?_eq_none_iff.mp ht
    cases hc
    exact ⟨rfl,rfl⟩

theorem contains_newline_closer (text : List UInt8) :
    (text ++ closer).contains Byte.newline = text.contains Byte.newline := by
  rw [List.contains_append,show closer.contains Byte.newline = false from rfl,Bool.or_false]

/-- A comment is read through its end, or to the end of the content, and nothing is held then. -/
theorem exists_closeBlockComment (hh : m.held = none) :
    ∃ n, (closeBlockComment false m).spansLines = (m.rest.take n).contains Byte.newline ∧
      (closeBlockComment false m).rest.given = m.given + n ∧ (closeBlockComment false m).rest.held = none ∧
      (ClosedAfter m.rest n ∨ ¬closer <:+: m.rest ∧ n = m.rest.length) := by
  have hheld : m.cursor.held = none := Option.map_eq_none_iff.mpr hh
  have hbefore : Cursor.Before (m.file.positionAt m.given) m.rest m.cursor := by
    rw [cursor,hh]
    exact .given
  obtain ⟨hspans,hfile,hcursor⟩ := (lockstep_cursor m.file).closeBlockComment false (s := m.cursor) (u := m) ⟨rfl,rfl⟩
  by_cases hc : closer <:+: m.rest
  · obtain ⟨text,more,hrest,ht⟩ := exists_closer hc
    rw [hrest] at hbefore
    have hstar : Cursor.Before (m.file.positionAt m.given) (text ++ Byte.star :: Byte.slash :: more) m.cursor := hbefore
    have hclosed := closeBlockComment_closed hstar ht false
    rw [hclosed] at hspans hcursor
    rw [← List.append_assoc] at hrest
    obtain ⟨hheld',hgiven⟩ := of_cursor hcursor rfl hfile hrest
    rw [List.length_append] at hgiven
    refine ⟨_,?_,hgiven,hheld',.inl ?_⟩
    · rw [← hspans,hrest,← List.length_append,List.take_left,contains_newline_closer,Bool.false_or]
    · rw [hrest,List.append_assoc]
      exact closedAfter_append ht
  · have hopen := closeBlockComment_open hbefore hc false
    rw [hopen] at hspans hcursor
    obtain ⟨hnone,hnil⟩ := held_drained hbefore hheld
    have hrest : m.rest = m.rest ++ (drained (m.file.positionAt m.given) m.rest m.cursor).rest := by
      rw [hnil,List.append_nil]
    obtain ⟨hheld',hgiven⟩ := of_cursor hcursor hnone hfile hrest
    refine ⟨_,?_,hgiven,hheld',.inr ⟨hc,rfl⟩⟩
    rw [← hspans,List.take_length,Bool.false_or]

end Place

/-- The reader `r`, which has given so many bytes of the content, has read `n` more as the rest of a block comment. -/
structure SourceFile.CommentRead (f : SourceFile) (r : Reader) (comment : BlockComment Reader) (given n : Nat) : Prop where
  before : r.upcoming = f.content.drop given
  fits : given + n ≤ f.content.length
  ends : ClosedAfter r.upcoming n ∨ ¬closer <:+: r.upcoming ∧ n = r.upcoming.length
  after : comment.rest.upcoming = f.content.drop (given + n)
  held : comment.rest.held = none
  here : comment.rest.here = f.positionAt (given + n - 1)
  spansLines : comment.spansLines = true ↔ Byte.newline ∈ r.upcoming.take n

theorem Place.exists_commentRead {m : Place} (hh : m.held = none) :
    ∃ n, m.file.CommentRead m.reader (closeBlockComment false m.reader) m.given n := by
  obtain ⟨n,hspans,hgiven,hnone,hends⟩ := exists_closeBlockComment hh
  obtain ⟨hspans',hfile,hreader⟩ := (lockstep_reader m.file).closeBlockComment false (s := m.reader) (u := m) ⟨rfl,rfl⟩
  have hle := (closeBlockComment false m).rest.given_le
  rw [hfile,hgiven] at hle
  refine ⟨n,upcoming_reader hh,hle,?_,?_,?_,?_,?_⟩
  · rw [upcoming_reader hh]
    exact hends
  · rw [hreader,upcoming_reader hnone,rest,hfile,hgiven]
  · rw [hreader,reader,hnone]
    rfl
  · rw [hreader,reader,here,hfile,hgiven]
  · rw [hspans',hspans,upcoming_reader hh,List.contains_iff_mem]

/-- Wherever a reader has come to, if it holds nothing, as right after the opening of a comment, it is read on
through the first end of a comment that is still to come, or to the end of the content. Only bytes still to come count, so
the star of the opening does not end the comment. The reader holds nothing then and stands on the last byte that it has
given, and the comment spans lines if a newline has been given on the way. -/
theorem closeBlockComment_first (f : SourceFile) (ds : List Demand) (hheld : (Demand.run f.reader ds).held = none) :
    ∃ given n, f.CommentRead (Demand.run f.reader ds) (closeBlockComment false (Demand.run f.reader ds)) given n := by
  obtain ⟨hfile,hrun⟩ := Place.run_reader f ds
  rw [hrun] at hheld ⊢
  obtain ⟨n,hn⟩ := Place.exists_commentRead (Option.map_eq_none_iff.mp hheld)
  rw [hfile] at hn
  exact ⟨_,n,hn⟩

def starsSample : SourceFile := ⟨Utf8.encode "/*/**\n**/x\n"⟩

theorem closedAfter_starsSample : ClosedAfter [47,42,42,10,42,42,47,120,10] 7 := by
  have hless : ∀ n < 7, ¬closer <:+ ([47,42,42,10,42,42,47,120,10] : List UInt8).take n := by decide
  refine ⟨by decide,?_⟩
  intro n hn
  exact Nat.le_of_not_lt fun hlt => hless n hlt hn

theorem closeBlockComment_starsSample :
    let r := Demand.run starsSample.reader [.next,.next]
    let comment := closeBlockComment false r
    r.held = none ∧ r.here = ⟨1,1⟩ ∧ comment.rest.here = ⟨2,8⟩ ∧ comment.rest.upcoming = [120,10] ∧
      comment.spansLines = true := by
  have hheld : (Demand.run starsSample.reader [.next,.next]).held = none := by decide
  obtain ⟨given,n,h⟩ := closeBlockComment_first starsSample [.next,.next] hheld
  have hupcoming : (Demand.run starsSample.reader [.next,.next]).upcoming = [47,42,42,10,42,42,47,120,10] := by decide
  obtain ⟨hbefore,hfits,hends,hafter,-,hhere,hspans⟩ := h
  rw [hupcoming] at hbefore hends hspans
  have hn : n = 7 := by
    rcases hends with hends | ⟨hno,-⟩
    · exact hends.unique closedAfter_starsSample
    · exact absurd (by decide) hno
  have hgiven : given = 2 := by
    have hlength := congrArg List.length hbefore
    have hcontent : starsSample.content.length = 11 := by decide
    rw [List.length_drop,hcontent,List.length_cons] at hlength
    simp at hlength
    omega
  subst hn hgiven
  refine ⟨hheld,by decide,hhere.trans (by decide),hafter.trans (by decide),hspans.mpr (by decide)⟩

end SourceTags
