import Mathlib.Data.UInt
import SourceTags.Proofs.BlockComments

/-! # Positions in words

A reader may count lines and offsets in words of 32 bits, which wrap around, if the file has fewer bytes than there are
words. It does the same as the reader that counts without a bound, computed modulo the number of words. Only the line of
the byte that follows may come to that number, and only where no byte follows; every position that is seen is below
it. So positions in words are the positions themselves, and the tags are the same.
-/
namespace SourceTags
open ByteSource

structure WordPosition where
  line : UInt32
  offset : UInt32
  deriving DecidableEq

def WordPosition.toPosition (p : WordPosition) : Position := ⟨p.line.toNat,p.offset.toNat⟩

def Position.words (p : Position) : WordPosition := ⟨UInt32.ofNat p.line,UInt32.ofNat p.offset⟩

/-- A reader with words for counters. Its sums and differences wrap around. -/
structure WordReader where
  bytes : List UInt8
  /-- Index of the first byte that has not been read. -/
  pos : UInt32
  /-- Line of the byte at that index. -/
  nextLine : UInt32
  here : WordPosition
  held : Option (UInt8 × WordPosition)
  owesNewline : Bool
  fits : bytes.length < UInt32.size

namespace WordReader

def ofBytes (bytes : List UInt8) (start : UInt32) (fits : bytes.length < UInt32.size) : WordReader where
  bytes := bytes
  pos := start
  nextLine := 1
  here := ⟨1,start⟩
  held := none
  owesNewline := decide (start.toNat < bytes.length) && bytes.getLast? != some Byte.newline
  fits := fits

def rest (w : WordReader) : List UInt8 := w.bytes.drop w.pos.toNat

def length (w : WordReader) : UInt32 := UInt32.ofNat w.bytes.length

def giveByte (b : UInt8) (w : WordReader) : WordReader :=
  { w with
    here := ⟨w.nextLine,w.pos⟩
    pos := w.pos + 1
    nextLine := if b = Byte.newline then w.nextLine + 1 else w.nextLine }

def giveNewline (w : WordReader) : WordReader :=
  { w with here := ⟨w.nextLine,w.pos⟩, nextLine := w.nextLine + 1, owesNewline := false }

def next? (w : WordReader) : Option (UInt8 × WordReader) :=
  match w.held with
  | some (b,p) => some (b,{ w with held := none, here := p })
  | none =>
    match w.bytes[w.pos.toNat]? with
    | some b => some (b,w.giveByte b)
    | none => if w.owesNewline then some (Byte.newline,w.giveNewline) else none

def putBack (b : UInt8) (w : WordReader) : WordReader := { w with held := some (b,w.here) }

def passFound (target : UInt8) (index : Nat) (w : WordReader) : WordReader :=
  let line := w.nextLine + UInt32.ofNat ((w.rest.take index).count Byte.newline)
  { w with
    here := ⟨line,w.pos + UInt32.ofNat index⟩
    nextLine := line + if target = Byte.newline then 1 else 0
    pos := w.pos + (UInt32.ofNat index + 1) }

def passRest (w : WordReader) : WordReader :=
  let newlines := UInt32.ofNat (w.rest.count Byte.newline)
  let ending : UInt32 := if w.rest.getLast? = some Byte.newline then 1 else 0
  { w with
    here := if w.rest.isEmpty then w.here else ⟨w.nextLine + newlines - ending,w.length - 1⟩
    nextLine := w.nextLine + newlines
    pos := w.length }

def jump (target : UInt8) (w : WordReader) : WordReader :=
  match w.rest.idxOf? target with
  | some index => w.passFound target index
  | none => if w.owesNewline then w.passRest.giveNewline else w.passRest

def skipPast (target : UInt8) (w : WordReader) : WordReader :=
  match w.held with
  | some (b,p) =>
    let given := { w with held := none, here := p }
    if b = target then given else given.jump target
  | none => w.jump target

def isAtEnd (w : WordReader) : Bool := w.held.isNone && decide (w.bytes.length ≤ w.pos.toNat) && !w.owesNewline

def unread (w : WordReader) : Nat := w.held.toList.length + w.rest.length + w.owesNewline.toNat

theorem toNat_length (w : WordReader) : w.length.toNat = w.bytes.length := UInt32.toNat_ofNat_of_lt' w.fits

theorem toNat_pos_add {w : WordReader} {n : Nat} (h : w.pos.toNat + n ≤ w.bytes.length) :
    (w.pos + UInt32.ofNat n).toNat = w.pos.toNat + n := by
  have hfits := w.fits
  rw [← w.pos.ofNat_toNat,← UInt32.ofNat_add,UInt32.ofNat_toNat,UInt32.toNat_ofNat_of_lt' (by omega)]

theorem unread_next {w w' : WordReader} {b : UInt8} (h : w.next? = some (b,w')) : w'.unread < w.unread := by
  unfold next? at h
  split at h
  · next hheld =>
    obtain ⟨-,rfl⟩ := Prod.mk.inj (Option.some.inj h)
    simp [unread,rest,hheld]
  · next hheld =>
    split at h
    · next hb =>
      obtain ⟨-,rfl⟩ := Prod.mk.inj (Option.some.inj h)
      obtain ⟨hlt,-⟩ := List.getElem?_eq_some_iff.mp hb
      have hpos : (w.pos + 1).toNat = w.pos.toNat + 1 := toNat_pos_add hlt
      simp only [unread,rest,giveByte,List.length_drop,hpos]
      omega
    · split at h
      · next howes =>
        obtain ⟨-,rfl⟩ := Prod.mk.inj (Option.some.inj h)
        simp [unread,rest,giveNewline,howes]
      · contradiction

theorem unread_putBack (b : UInt8) (w : WordReader) : (w.putBack b).unread ≤ w.unread + 1 := by
  simp only [unread,putBack,rest,Option.toList_some,List.length_singleton]
  omega

theorem unread_passRest {w : WordReader} (h : w.held = none) : w.passRest.unread ≤ w.owesNewline.toNat := by
  have hpos : w.passRest.pos.toNat = w.bytes.length := w.toNat_length
  simp only [unread,rest,hpos]
  simp [passRest,h]

theorem unread_jump {w : WordReader} (target : UInt8) (h : w.held = none) : (w.jump target).unread ≤ w.unread := by
  have hrest := unread_passRest h
  have howes : w.owesNewline.toNat ≤ w.unread := Nat.le_add_left _ _
  unfold jump
  split
  · next index hindex =>
    obtain ⟨hlt,-⟩ := List.idxOf?_eq_some_iff.mp hindex
    rw [rest,List.length_drop] at hlt
    have hle : w.pos.toNat + (index + 1) ≤ w.bytes.length := by omega
    have hpos : (w.pos + (UInt32.ofNat index + 1)).toNat = w.pos.toNat + (index + 1) :=
      UInt32.ofNat_add index 1 ▸ toNat_pos_add hle
    simp only [unread,rest,passFound,h,hpos,Option.toList_none,List.length_nil,List.length_drop]
    omega
  · split
    · have hle : w.passRest.giveNewline.unread ≤ w.passRest.unread :=
        Nat.add_le_add_left (Nat.zero_le _) _
      exact Nat.le_trans (Nat.le_trans hle hrest) howes
    · exact Nat.le_trans hrest howes

theorem unread_skipPast (target : UInt8) (w : WordReader) : (w.skipPast target).unread ≤ w.unread := by
  unfold skipPast
  split
  · next b p hheld =>
    have hgiven : ({ w with held := none, here := p } : WordReader).unread ≤ w.unread := by
      simp only [unread,rest,Option.toList_none,List.length_nil]
      omega
    dsimp only
    split
    · exact hgiven
    · exact Nat.le_trans (unread_jump target rfl) hgiven
  · next hheld => exact unread_jump target hheld

instance : ByteSource WordReader where
  next? := next?
  putBack := putBack
  skipPast := skipPast
  lastPosition w := w.here.toPosition
  unread := unread
  unread_next := unread_next
  unread_putBack := unread_putBack
  unread_skipPast := unread_skipPast

end WordReader

namespace Reader

def words (bytes : List UInt8) (fits : bytes.length < UInt32.size) (r : Reader) : WordReader where
  bytes := bytes
  pos := UInt32.ofNat r.ahead.offset
  nextLine := UInt32.ofNat r.ahead.line
  here := r.here.words
  held := r.held.map fun x => (x.1,x.2.words)
  owesNewline := r.owesNewline
  fits := fits

/-- What the reader has not read are the bytes from the offset on that follows. -/
structure ReadsFrom (bytes : List UInt8) (r : Reader) : Prop where
  rest : r.rest = bytes.drop r.ahead.offset
  offset_le : r.ahead.offset ≤ bytes.length

variable {bytes rest : List UInt8} {fits : bytes.length < UInt32.size} {b target : UInt8} {r : Reader}

namespace ReadsFrom

theorem toNat_pos (h : r.ReadsFrom bytes) : (r.words bytes fits).pos.toNat = r.ahead.offset :=
  UInt32.toNat_ofNat_of_lt' (Nat.lt_of_le_of_lt h.offset_le fits)

theorem rest_words (h : r.ReadsFrom bytes) : (r.words bytes fits).rest = r.rest := by
  rw [WordReader.rest,h.toNat_pos,h.rest]
  rfl

theorem length_eq (h : r.ReadsFrom bytes) : r.ahead.offset + r.rest.length = bytes.length := by
  rw [h.rest,List.length_drop]
  exact Nat.add_sub_of_le h.offset_le

theorem getElem?_words (h : r.ReadsFrom bytes) :
    (r.words bytes fits).bytes[(r.words bytes fits).pos.toNat]? = r.rest.head? := by
  rw [h.toNat_pos,h.rest,List.head?_drop]
  rfl

end ReadsFrom

theorem giveByte_words : (r.words bytes fits).giveByte b = (r.giveByte b rest).words bytes fits := by
  have hline : UInt32.ofNat (r.ahead.line + 1) = UInt32.ofNat r.ahead.line + 1 := UInt32.ofNat_add ..
  have hpos : UInt32.ofNat (r.ahead.offset + 1) = UInt32.ofNat r.ahead.offset + 1 := UInt32.ofNat_add ..
  by_cases hb : b = Byte.newline
  · simp only [WordReader.giveByte,words,giveByte,Position.words,Position.past,hb,if_true,hline,hpos]
  · simp only [WordReader.giveByte,words,giveByte,Position.words,Position.past,hb,if_false,hpos]

theorem giveNewline_words : (r.words bytes fits).giveNewline = r.giveNewline.words bytes fits := by
  have hline : UInt32.ofNat (r.ahead.line + 1) = UInt32.ofNat r.ahead.line + 1 := UInt32.ofNat_add ..
  simp only [WordReader.giveNewline,words,giveNewline,Position.words,hline]

theorem next?_words (h : r.ReadsFrom bytes) :
    (r.words bytes fits).next? = r.next?.map fun x => (x.1,x.2.words bytes fits) := by
  have hheld : (r.words bytes fits).held = r.held.map fun x => (x.1,x.2.words) := rfl
  have howes : (r.words bytes fits).owesNewline = r.owesNewline := rfl
  unfold WordReader.next? next?
  rw [h.getElem?_words,hheld,howes]
  cases r.held with
  | some x => rfl
  | none =>
    cases r.rest with
    | cons b rest => exact congrArg (fun w => some (b,w)) giveByte_words
    | nil =>
      cases r.owesNewline with
      | true => exact congrArg (fun w => some (Byte.newline,w)) giveNewline_words
      | false => rfl

theorem passFound_words (h : r.ReadsFrom bytes) (target : UInt8) (index : Nat) :
    (r.words bytes fits).passFound target index = (r.passFound target index).words bytes fits := by
  have hending : UInt32.ofNat (if target = Byte.newline then 1 else 0) = if target = Byte.newline then 1 else 0 := by
    split <;> rfl
  unfold WordReader.passFound passFound
  rw [h.rest_words]
  simp only [words,Position.words,UInt32.ofNat_add,hending,UInt32.add_assoc]
  rfl

/-- The newline at the end is taken back from a sum that has it. -/
theorem ofNat_line_passRest (r : Reader) :
    UInt32.ofNat (r.ahead.line + r.rest.count Byte.newline - if r.rest.getLast? = some Byte.newline then 1 else 0) =
      UInt32.ofNat r.ahead.line + UInt32.ofNat (r.rest.count Byte.newline) -
        if r.rest.getLast? = some Byte.newline then 1 else 0 := by
  by_cases hl : r.rest.getLast? = some Byte.newline
  · have hcount : 0 < r.rest.count Byte.newline := List.count_pos_iff.mpr (List.mem_of_getLast? hl)
    have hle : 1 ≤ r.ahead.line + r.rest.count Byte.newline := by omega
    rw [if_pos hl,if_pos hl,UInt32.ofNat_sub hle,UInt32.ofNat_add]
    rfl
  · rw [if_neg hl,if_neg hl,Nat.sub_zero,UInt32.sub_zero,UInt32.ofNat_add]

theorem passRest_words (h : r.ReadsFrom bytes) :
    (r.words bytes fits).passRest = r.passRest.words bytes fits := by
  have hlength := h.length_eq
  have hlast : r.rest.isEmpty = false → UInt32.ofNat (bytes.length - 1) = UInt32.ofNat bytes.length - 1 := by
    intro hr
    have hpos := List.length_pos_iff.mpr (List.isEmpty_eq_false_iff.mp hr)
    have hle : 1 ≤ bytes.length := by omega
    exact UInt32.ofNat_sub hle
  have hline : UInt32.ofNat (r.ahead.line + r.rest.count Byte.newline) =
      UInt32.ofNat r.ahead.line + UInt32.ofNat (r.rest.count Byte.newline) := UInt32.ofNat_add ..
  unfold WordReader.passRest passRest
  rw [h.rest_words]
  cases hr : r.rest.isEmpty with
  | true =>
    simp only [words,hline,hlength,if_true]
    rfl
  | false =>
    simp only [words,Position.words,Bool.false_eq_true,if_false,ofNat_line_passRest,hline,hlength,hlast hr]
    rfl

theorem jump_words (h : r.ReadsFrom bytes) (target : UInt8) :
    (r.words bytes fits).jump target = (r.jump target).words bytes fits := by
  have howes : (r.words bytes fits).owesNewline = r.owesNewline := rfl
  unfold WordReader.jump jump
  rw [h.rest_words,howes]
  cases r.rest.idxOf? target with
  | some index => exact passFound_words h target index
  | none =>
    dsimp only
    rw [passRest_words h,giveNewline_words]
    split <;> rfl

theorem skipPast_words (h : r.ReadsFrom bytes) (target : UInt8) :
    (r.words bytes fits).skipPast target = (r.skipPast target).words bytes fits := by
  have hheld : (r.words bytes fits).held = r.held.map fun x => (x.1,x.2.words) := rfl
  unfold WordReader.skipPast skipPast
  rw [hheld]
  cases r.held with
  | none => exact jump_words h target
  | some x =>
    obtain ⟨b,p⟩ := x
    have hgiven : ({ r with held := none, here := p } : Reader).ReadsFrom bytes := ⟨h.rest,h.offset_le⟩
    dsimp only [Option.map_some]
    split
    · rfl
    · exact jump_words hgiven target

end Reader

namespace SourceFile

variable {f : SourceFile} {i : Nat}

theorem count_body_lt (h : f.lacksNewline = true) : f.body.count Byte.newline < f.body.length := by
  refine Nat.lt_of_le_of_ne List.count_le_length ?_
  intro hcount
  have hne := body_ne_nil h
  have hlast : f.body.getLast? = some Byte.newline := by
    rw [List.getLast?_eq_some_getLast hne,List.count_eq_length.mp hcount _ (List.getLast_mem hne)]
  rw [lacksNewline,hlast] at h
  simp at h

/-- Before a byte of the content there are less newlines than the file has bytes. -/
theorem count_take_lt (h : i < f.content.length) : (f.content.take i).count Byte.newline < f.bytes.length := by
  have hlength := f.length_content
  have hbody : f.body.length ≤ f.bytes.length := by
    rw [f.length_body]
    exact Nat.sub_le ..
  cases hl : f.lacksNewline with
  | false =>
    have hcount : (f.content.take i).count Byte.newline ≤ i := List.count_le_length.trans (List.length_take_le ..)
    rw [hl,Bool.toNat_false,← f.length_body] at hlength
    omega
  | true =>
    rw [hl,Bool.toNat_true,← f.length_body] at hlength
    have htake : f.content.take i = f.body.take i := by
      rw [f.content_eq,List.take_append_of_le_length (by omega)]
    have hcount : (f.body.take i).count Byte.newline ≤ f.body.count Byte.newline :=
      (List.take_sublist ..).count_le _
    have hlt := count_body_lt hl
    rw [htake]
    omega

theorem line_le_length (h : i < f.content.length) : (f.positionAt i).line ≤ f.bytes.length := by
  have hcount := count_take_lt h
  simp only [positionAt]
  omega

theorem line_le (f : SourceFile) (i : Nat) : (f.positionAt i).line ≤ f.bytes.length + 1 := by
  by_cases hi : i < f.content.length
  · exact Nat.le_succ_of_le (line_le_length hi)
  have hall : f.content.take i = f.content := List.take_of_length_le (Nat.le_of_not_lt hi)
  simp only [positionAt,hall]
  rcases List.eq_nil_or_concat f.content with hnil | ⟨init,b,hconcat⟩
  · rw [hnil]
    simp
  · rw [List.concat_eq_append] at hconcat
    have hinit : f.content.take init.length = init := by rw [hconcat,List.take_left]
    have hcount := count_take_lt (f := f) (i := init.length) (by rw [hconcat]; simp)
    have hlast : [b].count Byte.newline ≤ 1 := List.count_le_length
    rw [hinit] at hcount
    rw [hconcat,List.count_append]
    omega

end SourceFile

namespace Place

variable {m : Place}

theorem readsFrom_reader (m : Place) : m.reader.ReadsFrom m.file.bytes where
  rest := by
    simp only [reader]
    rcases Nat.le_total (m.file.start + m.given) m.file.bytes.length with h | h
    · rw [Nat.min_eq_left h]
    · rw [Nat.min_eq_right h,List.drop_eq_nil_of_le h,List.drop_length]
  offset_le := Nat.min_le_right ..

theorem here_lt (m : Place) (fits : m.file.bytes.length < UInt32.size) :
    m.here.line < UInt32.size ∧ m.here.offset < UInt32.size := by
  have hsize : 1 < UInt32.size := by decide
  have hstart := m.file.start_le
  have hlength := m.file.length_content
  have howed : m.file.lacksNewline.toNat ≤ 1 := Bool.toNat_le _
  have hgiven := m.given_le
  constructor
  · by_cases hlt : m.given - 1 < m.file.content.length
    · exact Nat.lt_of_le_of_lt (SourceFile.line_le_length hlt) fits
    · have hzero : m.given - 1 = 0 := by omega
      simp only [here,SourceFile.positionAt,hzero,List.take_zero,List.count_nil]
      exact hsize
  · simp only [here,SourceFile.positionAt]
    omega

theorem line_le_size (m : Place) (fits : m.file.bytes.length < UInt32.size) :
    (m.file.positionAt m.given).line ≤ UInt32.size ∧
      ((m.file.positionAt m.given).line = UInt32.size → m.rest = []) := by
  refine ⟨Nat.le_trans (m.file.line_le m.given) fits,?_⟩
  intro hline
  refine List.drop_eq_nil_of_le (Nat.le_of_not_lt fun hlt => ?_)
  have hle := SourceFile.line_le_length hlt
  omega

theorem rest_reader_prefix (m : Place) : m.reader.rest <+: m.rest := by
  have hrest : m.reader.rest = m.file.body.drop m.given := by
    rw [SourceFile.body,List.drop_drop]
    rfl
  rw [rest,m.file.content_eq,List.drop_append,hrest]
  exact List.prefix_append ..

theorem passed_eq (m : Place) (target : UInt8) :
    let passed := m.reader.rest.takeWhile (· != target)
    (m.file.positionAt m.given).line + passed.count Byte.newline = (m.file.positionAt (m.given + passed.length)).line := by
  intro passed
  obtain ⟨more,hmore⟩ : passed <+: m.rest := (List.takeWhile_prefix _).trans m.rest_reader_prefix
  have htake : m.file.content.take (m.given + passed.length) = m.file.content.take m.given ++ passed := by
    rw [List.take_add,← rest,← hmore,List.take_left]
  simp only [SourceFile.positionAt]
  rw [htake,List.count_append,Nat.add_assoc]

/-- Only a jump through all that is left may count to the number of words. -/
theorem passed_le_size (m : Place) (fits : m.file.bytes.length < UInt32.size) (target : UInt8) :
    let line := (m.file.positionAt m.given).line + (m.reader.rest.takeWhile (· != target)).count Byte.newline
    line ≤ UInt32.size ∧ (line = UInt32.size → (m.jump target).rest = []) := by
  dsimp only
  rw [passed_eq]
  refine ⟨Nat.le_trans (m.file.line_le _) fits,?_⟩
  intro hsize
  have hend : m.file.content.length ≤ m.given + (m.reader.rest.takeWhile (· != target)).length := by
    refine Nat.le_of_not_lt fun hlt => ?_
    have hle := SourceFile.line_le_length hlt
    omega
  have hpassed := (List.takeWhile_prefix (l := m.reader.rest) (· != target)).length_le
  have hrest : m.reader.rest = m.rest := by
    apply m.rest_reader_prefix.eq_of_length_le
    rw [length_rest]
    omega
  refine List.drop_eq_nil_of_le ?_
  rw [hrest] at hend
  simp only [jump]
  omega

end Place

namespace WordReader

/-- The reader of a file, with words for counters. -/
def ofFile (f : SourceFile) (fits : f.bytes.length < UInt32.size) : WordReader :=
  ofBytes f.bytes (UInt32.ofNat f.start) fits

variable {f : SourceFile}

theorem ofFile_eq (fits : f.bytes.length < UInt32.size) :
    ofFile f fits = (Place.start f).reader.words f.bytes fits := by
  have hstart : (UInt32.ofNat f.start).toNat = f.start :=
    UInt32.toNat_ofNat_of_lt' (Nat.lt_of_le_of_lt f.start_le fits)
  unfold ofFile ofBytes
  rw [hstart,Place.reader_start]
  rfl

theorem next?_place (m : Place) (fits : m.file.bytes.length < UInt32.size) :
    (m.reader.words m.file.bytes fits).next? = m.next?.map fun x => (x.1,x.2.reader.words m.file.bytes fits) := by
  rw [Reader.next?_words m.readsFrom_reader,m.next?_reader,Option.map_map]
  rfl

theorem lockstep_place (fits : f.bytes.length < UInt32.size) :
    Lockstep Eq fun (w : WordReader) (m : Place) => m.file = f ∧ w = m.reader.words f.bytes fits where
  next_none := by
    rintro _ m ⟨rfl,rfl⟩ hn
    exact Option.map_eq_none_iff.mp ((next?_place m fits).symm.trans hn)
  next_some := by
    rintro _ w' m b ⟨rfl,rfl⟩ hn
    obtain ⟨⟨_,m'⟩,hm,hx⟩ := Option.map_eq_some_iff.mp ((next?_place m fits).symm.trans hn)
    cases hx
    exact ⟨m',hm,Place.file_next hm,rfl⟩
  putBack := by
    rintro _ m b ⟨rfl,rfl⟩
    exact ⟨rfl,rfl⟩
  skipPast := by
    rintro _ m b ⟨rfl,rfl⟩
    obtain ⟨hfile,hreader⟩ := (Place.lockstep_reader m.file).skipPast b (s := m.reader) (u := m) ⟨rfl,rfl⟩
    refine ⟨hfile,(Reader.skipPast_words m.readsFrom_reader b).trans ?_⟩
    exact congrArg (Reader.words m.file.bytes fits) hreader
  position := by
    rintro _ m ⟨rfl,rfl⟩
    obtain ⟨hline,hoffset⟩ := m.here_lt fits
    change (⟨(UInt32.ofNat m.here.line).toNat,(UInt32.ofNat m.here.offset).toNat⟩ : Position) = m.here
    rw [UInt32.toNat_ofNat_of_lt' hline,UInt32.toNat_ofNat_of_lt' hoffset]

theorem isAtEnd_iff (w : WordReader) : w.isAtEnd = true ↔ w.next? = none := by
  unfold isAtEnd next?
  cases w.held with
  | some x => simp
  | none =>
    by_cases hb : w.bytes.length ≤ w.pos.toNat
    · simp [hb]
    · simp [List.getElem?_eq_getElem (Nat.lt_of_not_le hb),hb]

/-- What the reader with words has at a place of the content. All that it shows is exact, and so is all that it
computes on the way, save that the line of the next byte, and the sum that a jump computes, may come to the
number of words; nothing is left to read then. -/
structure Shows (w : WordReader) (m : Place) : Prop where
  here : w.here.toPosition = m.here
  here_lt : m.here.line < UInt32.size ∧ m.here.offset < UInt32.size
  next : w.next?.map Prod.fst = m.next?.map Prod.fst
  isAtEnd : w.isAtEnd = true ↔ m.next? = none
  pos : w.pos.toNat = min (m.file.start + m.given) m.file.bytes.length
  pos_le : w.pos.toNat ≤ w.bytes.length
  last : w.rest ≠ [] → (w.length - 1).toNat + 1 = w.bytes.length
  nextLine : w.nextLine = UInt32.ofNat (m.file.positionAt m.given).line
  nextLine_le : (m.file.positionAt m.given).line ≤ UInt32.size ∧
    ((m.file.positionAt m.given).line = UInt32.size → m.rest = [])
  passed_le : ∀ target, let line := (m.file.positionAt m.given).line + (w.rest.takeWhile (· != target)).count Byte.newline
    line ≤ UInt32.size ∧ (line = UInt32.size → (m.jump target).rest = [])

theorem last_eq {w : WordReader} (h : w.rest ≠ []) : (w.length - 1).toNat + 1 = w.bytes.length := by
  have hfits := w.fits
  have hpos := List.length_pos_iff.mpr h
  rw [rest,List.length_drop] at hpos
  have hle : 1 ≤ w.bytes.length := by omega
  have hsub : w.length - 1 = UInt32.ofNat (w.bytes.length - 1) := (UInt32.ofNat_sub hle).symm
  rw [hsub,UInt32.toNat_ofNat_of_lt' (by omega)]
  omega

theorem shows_words (m : Place) (fits : m.file.bytes.length < UInt32.size) :
    (m.reader.words m.file.bytes fits).Shows m where
  here := (lockstep_place fits).position ⟨rfl,rfl⟩
  here_lt := m.here_lt fits
  next := by
    rw [next?_place,Option.map_map]
    rfl
  isAtEnd := by rw [isAtEnd_iff,next?_place,Option.map_eq_none_iff]
  pos := m.readsFrom_reader.toNat_pos
  pos_le := by
    rw [m.readsFrom_reader.toNat_pos]
    exact m.readsFrom_reader.offset_le
  last := last_eq
  nextLine := rfl
  nextLine_le := m.line_le_size fits
  passed_le target := by
    rw [m.readsFrom_reader.rest_words]
    exact m.passed_le_size fits target

theorem shows_run (f : SourceFile) (fits : f.bytes.length < UInt32.size) (ds : List Demand) :
    (Demand.run (ofFile f fits) ds).Shows (Demand.run (Place.start f) ds) := by
  obtain ⟨hfile,hwords⟩ := (lockstep_place fits).run ⟨rfl,ofFile_eq fits⟩ ds
  generalize Demand.run (Place.start f) ds = m at hfile hwords ⊢
  subst hfile
  rw [hwords]
  exact shows_words m fits

theorem tagSource_ofFile (f : SourceFile) (fits : f.bytes.length < UInt32.size) (settings : TagSettings)
    (lexicon : Lexicon) (tags : Array Tag) :
    tagSource settings lexicon tags (ofFile f fits) = tagSource settings lexicon tags f.reader := by
  have hplaces := (lockstep_place fits).tagSource_eq settings lexicon tags ⟨rfl,ofFile_eq fits⟩
  have hreader := (Place.lockstep_reader f).tagSource_eq settings lexicon tags ⟨rfl,(Place.reader_start f).symm⟩
  exact hplaces.trans hreader.symm

end WordReader

end SourceTags
