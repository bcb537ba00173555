import SourceTags.Source.File

/-! # A jump reads through

A reader jumps to a byte by computing where it lands. That is where reading byte after byte comes to when it
stops at the byte, or at the end if the byte does not come: the two leave the reader in one state, and so
with the same answers ever after. A byte held back, an owed newline and a reader at its end are no exceptions.
A cursor jumps in the same way.
-/
namespace SourceTags
open ByteSource

section ReadsThrough

variable {σ : Type} [ByteSource σ]

/-- Reading on from `s`, until `target` has been given or nothing is left to give, comes to `s'`. -/
inductive ReadsThrough (target : UInt8) : σ → σ → Prop
  | atEnd {s} : next? s = none → ReadsThrough target s s
  | found {s s'} : next? s = some (target,s') → ReadsThrough target s s'
  | passed {b s s' s''} : next? s = some (b,s') → b ≠ target → ReadsThrough target s' s'' →
      ReadsThrough target s s''

theorem ReadsThrough.unique {target : UInt8} {s u v : σ} (hu : ReadsThrough target s u)
    (hv : ReadsThrough target s v) : u = v := by
  induction hu generalizing v with
  | atEnd h =>
    cases hv with
    | atEnd => rfl
    | found h' | passed h' => rw [h] at h'; contradiction
  | found h =>
    cases hv with
    | atEnd h' => rw [h] at h'; contradiction
    | found h' => rw [h] at h'; exact (Prod.mk.inj (Option.some.inj h')).2
    | passed h' hb => rw [h] at h'; exact absurd (Prod.mk.inj (Option.some.inj h')).1.symm hb
  | passed h hb _ ih =>
    cases hv with
    | atEnd h' => rw [h] at h'; contradiction
    | found h' => rw [h] at h'; exact absurd (Prod.mk.inj (Option.some.inj h')).1 hb
    | passed h' _ hv =>
      rw [h] at h'
      obtain ⟨-,rfl⟩ := Prod.mk.inj (Option.some.inj h')
      exact ih hv

end ReadsThrough

namespace Reader

variable {b target : UInt8} {rest : List UInt8} {r : Reader}

theorem next_cons (hh : r.held = none) (hr : r.rest = b :: rest) :
    ByteSource.next? r = some (b,r.giveByte b rest) := by
  change r.next? = _
  simp only [next?,hh,hr]

theorem next_nil (hh : r.held = none) (hr : r.rest = []) :
    ByteSource.next? r = if r.owesNewline then some (Byte.newline,r.giveNewline) else none := by
  change r.next? = _
  simp only [next?,hh,hr]

theorem passFound_cons (hr : r.rest = b :: rest) (target : UInt8) (index : Nat) :
    r.passFound target (index + 1) = (r.giveByte b rest).passFound target index := by
  have hline : r.ahead.line + ((b :: rest).take (index + 1)).count Byte.newline =
      (r.ahead.past b).line + (rest.take index).count Byte.newline := by
    rw [List.take_succ_cons,List.count_cons]
    simp only [Position.past,beq_iff_eq]
    split <;> omega
  have hoffset : r.ahead.offset + (index + 1) = (r.ahead.past b).offset + index := by
    simp only [Position.past]
    omega
  simp only [passFound,giveByte,hr,hline,hoffset,List.drop_succ_cons]

/-- The place of the last byte of the rest, and what follows it, do not depend on how much of the rest has
been read, even if that is all of it. -/
theorem passRest_cons (hr : r.rest = b :: rest) : r.passRest = (r.giveByte b rest).passRest := by
  have hahead : (⟨r.ahead.line + (b :: rest).count Byte.newline,r.ahead.offset + (b :: rest).length⟩ : Position) =
      (r.ahead.past b).pastAll rest := Position.pastAll_cons r.ahead b rest
  obtain ⟨hline,hoffset⟩ := Position.mk.inj hahead
  have hhere : (⟨r.ahead.line + (b :: rest).count Byte.newline -
        (if (b :: rest).getLast? = some Byte.newline then 1 else 0),
        r.ahead.offset + (b :: rest).length - 1⟩ : Position) =
      if rest.isEmpty then r.ahead else ⟨(r.ahead.past b).line + rest.count Byte.newline -
        (if rest.getLast? = some Byte.newline then 1 else 0),(r.ahead.past b).offset + rest.length - 1⟩ := by
    cases rest with
    | nil =>
      rw [List.count_singleton]
      by_cases hb : b = Byte.newline <;> simp [hb]
    | cons x rest => rw [List.getLast?_cons_cons,hline,hoffset]; rfl
  simp only [passRest,giveByte,hr,List.isEmpty_cons,Bool.false_eq_true,if_false]
  rw [hhere,hahead]
  rfl

theorem jump_cons (hr : r.rest = b :: rest) (hb : b ≠ target) :
    r.jump target = (r.giveByte b rest).jump target := by
  have hindex : (b :: rest).idxOf? target = (rest.idxOf? target).map (· + 1) := by
    rw [List.idxOf?_cons,if_neg (by simpa using hb)]
  have hrest : (r.giveByte b rest).rest = rest := rfl
  unfold jump
  rw [hr,hindex,hrest]
  cases rest.idxOf? target with
  | some index => exact passFound_cons hr target index
  | none =>
    dsimp only [Option.map_none]
    rw [passRest_cons hr]
    rfl

theorem jump_found (hr : r.rest = target :: rest) : r.jump target = r.giveByte target rest := by
  have hindex : (target :: rest).idxOf? target = some 0 := by simp [List.idxOf?_cons]
  have hline : r.ahead.line + (if target = Byte.newline then 1 else 0) = (r.ahead.past target).line := by
    simp only [Position.past]
    split <;> rfl
  unfold jump
  rw [hr,hindex]
  simp only [passFound,giveByte,hr,List.take_zero,List.count_nil,Nat.add_zero,hline]
  rfl

theorem jump_nil (hr : r.rest = []) : r.jump target = if r.owesNewline then r.giveNewline else r := by
  obtain ⟨_,held,here,ahead,owes⟩ := r
  obtain rfl : _ = [] := hr
  rfl

theorem readsThrough_jump (target : UInt8) {r : Reader} (hh : r.held = none) :
    ReadsThrough target r (r.jump target) := by
  induction hr : r.rest generalizing r with
  | nil =>
    have hn := next_nil hh hr
    rw [jump_nil hr]
    cases ho : r.owesNewline with
    | false =>
      rw [ho] at hn
      exact .atEnd hn
    | true =>
      rw [ho] at hn
      by_cases ht : Byte.newline = target
      · exact .found (ht ▸ hn)
      · exact .passed hn ht (.atEnd (next_nil hh hr))
  | cons b rest ih =>
    have hn := next_cons hh hr
    by_cases hb : b = target
    · subst hb
      rw [jump_found hr]
      exact .found hn
    · rw [jump_cons hr hb]
      exact .passed hn hb (ih hh rfl)

/-- A jump comes to where reading on comes to. -/
theorem readsThrough_skipPast (target : UInt8) (r : Reader) :
    ReadsThrough target r (ByteSource.skipPast target r) := by
  change ReadsThrough target r (r.skipPast target)
  unfold skipPast
  cases hh : r.held with
  | none => exact readsThrough_jump target hh
  | some x =>
    obtain ⟨b,p⟩ := x
    have hn : ByteSource.next? r = some (b,{ r with held := none, here := p }) := by
      change r.next? = _
      simp only [next?,hh]
    dsimp only
    split
    · next hb => exact .found (hb ▸ hn)
    · next hb => exact .passed hn hb (readsThrough_jump target rfl)

/-- Jumping and reading on come to the same state, and to no other. -/
theorem readsThrough_iff_eq_skipPast (target : UInt8) (r r' : Reader) :
    ReadsThrough target r r' ↔ r' = r.skipPast target := by
  constructor
  · intro h
    exact h.unique (readsThrough_skipPast target r)
  · rintro rfl
    exact readsThrough_skipPast target r

end Reader

namespace Cursor

variable {b target : UInt8} {rest : List UInt8} {c : Cursor}

theorem next_cons (hh : c.held = none) (hr : c.rest = b :: rest) :
    ByteSource.next? c = some (b,⟨none,rest,c.ahead,c.ahead.past b⟩) := by
  change c.next? = _
  simp only [next?,hh,hr]

theorem jump_cons (hr : c.rest = b :: rest) (hb : b ≠ target) :
    c.jump target = jump target ⟨none,rest,c.ahead,c.ahead.past b⟩ := by
  have hne : (b != target) = true := bne_iff_ne.mpr hb
  unfold jump
  rw [hr]
  simp only [List.takeWhile_cons,List.dropWhile_cons,hne,if_true]
  cases rest.dropWhile (· != target) with
  | cons found rest => simp only [Position.pastAll_cons]
  | nil => cases hp : rest.takeWhile (· != target) <;> simp [Position.pastAll_cons]

theorem jump_found (hr : c.rest = target :: rest) :
    c.jump target = ⟨none,rest,c.ahead,c.ahead.past target⟩ := by simp [jump,hr]

theorem jump_nil (hh : c.held = none) (hr : c.rest = []) : c.jump target = c := by
  obtain ⟨_,_,here,ahead⟩ := c
  obtain rfl : _ = none := hh
  obtain rfl : _ = [] := hr
  simp [jump]

theorem readsThrough_jump (target : UInt8) {c : Cursor} (hh : c.held = none) :
    ReadsThrough target c (c.jump target) := by
  induction hr : c.rest generalizing c with
  | nil =>
    rw [jump_nil hh hr]
    refine .atEnd ?_
    change c.next? = none
    simp only [next?,hh,hr]
  | cons b rest ih =>
    have hn := next_cons hh hr
    by_cases hb : b = target
    · subst hb
      rw [jump_found hr]
      exact .found hn
    · rw [jump_cons hr hb]
      exact .passed hn hb (ih rfl rfl)

theorem readsThrough_skipPast (target : UInt8) (c : Cursor) :
    ReadsThrough target c (ByteSource.skipPast target c) := by
  change ReadsThrough target c (c.skipPast target)
  unfold skipPast
  cases hh : c.held with
  | none => exact readsThrough_jump target hh
  | some x =>
    obtain ⟨b,p⟩ := x
    have hn : ByteSource.next? c = some (b,{ c with held := none, here := p }) := by
      change c.next? = _
      simp only [next?,hh]
    dsimp only
    split
    · next hb => exact .found (hb ▸ hn)
    · next hb => exact .passed hn hb (readsThrough_jump target rfl)

end Cursor

end SourceTags
