import Mathlib.Data.List.Basic
import SourceTags.Byte
import SourceTags.Text.Utf8

/-! # Carriage returns before newlines

A text has a carriage return put before each newline, as bytes or as characters. It is the same to do so before
and after the bytes are read as text, well-formed or not: a newline and a carriage return are whole characters
wherever they stand, and no longer character is read as one of them.
-/
namespace SourceTags

section PutBefore

variable {α : Type} [DecidableEq α] {r n x : α} {xs ys : List α}

def putBefore (r n : α) (xs : List α) : List α := xs.flatMap fun x => if x = n then [r,n] else [x]

@[simp] theorem putBefore_nil : putBefore r n [] = [] := rfl

theorem putBefore_append : putBefore r n (xs ++ ys) = putBefore r n xs ++ putBefore r n ys := List.flatMap_append

theorem putBefore_cons_self : putBefore r n (n :: xs) = r :: n :: putBefore r n xs := by
  rw [putBefore,List.flatMap_cons,if_pos rfl]
  rfl

theorem putBefore_cons_of_ne (h : x ≠ n) : putBefore r n (x :: xs) = x :: putBefore r n xs := by
  rw [putBefore,List.flatMap_cons,if_neg h]
  rfl

theorem putBefore_of_not_mem (h : n ∉ xs) : putBefore r n xs = xs := by
  induction xs with
  | nil => rfl
  | cons x xs ih =>
    rw [List.mem_cons,not_or] at h
    rw [putBefore_cons_of_ne (Ne.symm h.1),ih h.2]

theorem head?_putBefore (h : x ∈ (putBefore r n xs).head?) : x ∈ xs.head? ∨ x = r := by
  cases xs with
  | nil => contradiction
  | cons y xs =>
    by_cases hy : y = n
    · subst hy
      rw [putBefore_cons_self] at h
      exact .inr (Option.some.inj h).symm
    · rw [putBefore_cons_of_ne hy] at h
      exact .inl h

theorem prefix_putBefore (hr : r ∉ xs) (hn : n ∉ xs) : xs <+: putBefore r n ys ↔ xs <+: ys := by
  induction xs generalizing ys with
  | nil => simp
  | cons x xs ih =>
    rw [List.mem_cons,not_or] at hr hn
    cases ys with
    | nil => simp
    | cons y ys =>
      by_cases hy : y = n
      · subst hy
        rw [putBefore_cons_self,List.cons_prefix_cons,List.cons_prefix_cons]
        exact ⟨fun h => absurd h.1.symm hr.1,fun h => absurd h.1.symm hn.1⟩
      · rw [putBefore_cons_of_ne hy,List.cons_prefix_cons,List.cons_prefix_cons,ih hr.2 hn.2]

theorem mem_putBefore_self : n ∈ putBefore r n xs ↔ n ∈ xs := by
  simp only [putBefore,List.mem_flatMap]
  constructor
  · rintro ⟨x,hx,hn⟩
    split at hn
    · next h => exact h ▸ hx
    · exact List.mem_singleton.mp hn ▸ hx
  · intro h
    exact ⟨n,h,by simp⟩

theorem count_putBefore_self (hr : r ≠ n) : (putBefore r n xs).count n = xs.count n := by
  induction xs with
  | nil => rfl
  | cons x xs ih =>
    by_cases h : x = n
    · subst h
      rw [putBefore_cons_self,List.count_cons_of_ne hr,List.count_cons_self,List.count_cons_self,ih]
    · rw [putBefore_cons_of_ne h,List.count_cons_of_ne h,List.count_cons_of_ne h,ih]

theorem count_dropLast_putBefore (hr : r ≠ n) : (putBefore r n xs).dropLast.count n = xs.dropLast.count n := by
  rcases List.eq_nil_or_concat xs with rfl | ⟨init,x,rfl⟩
  · rfl
  · rw [List.concat_eq_append,putBefore_append,List.dropLast_concat]
    by_cases h : x = n
    · subst h
      have hlast : putBefore r x [x] = [r] ++ [x] := putBefore_cons_self
      rw [hlast,← List.append_assoc,List.dropLast_concat,List.count_append,count_putBefore_self hr]
      simp [hr]
    · rw [putBefore_cons_of_ne h,putBefore_nil,List.dropLast_concat,count_putBefore_self hr]

end PutBefore

def Byte.withReturns (bytes : List UInt8) : List UInt8 := putBefore Byte.carriageReturn Byte.newline bytes

namespace Utf8

/-- The text with a carriage return before each newline. -/
def withReturns (s : String) : String := String.ofList (putBefore '\r' '\n' s.toList)

theorem withReturns_append (s s' : String) : withReturns (s ++ s') = withReturns s ++ withReturns s' := by
  unfold withReturns
  rw [String.toList_append,putBefore_append,String.ofList_append]

theorem withReturns_of_not_mem {s : String} (h : '\n' ∉ s.toList) : withReturns s = s := by
  unfold withReturns
  rw [putBefore_of_not_mem h,String.ofList_toList]

/-- What has begun is no single byte: neither can a byte below 128 go on with it, nor can it end as such. -/
structure Begun.IsLong (x : Begun) : Prop where
  low : 128 ≤ x.low.toNat
  bits : 0 < x.bits ∨ 0 < x.owed ∧ 128 < x.low.toNat ∧ x.high.toNat < 192

namespace Begun.IsLong

variable {x : Begun} {b : UInt8}

theorem value (h : x.IsLong) (ho : x.owed = 0) (b : UInt8) : 64 ≤ x.bits * 64 + b.toNat % 64 := by
  have hbits := h.bits
  omega

theorem next (h : x.IsLong) (hb : x.low ≤ b ∧ b ≤ x.high) (owed : Nat) :
    (⟨x.bits * 64 + b.toNat % 64,owed,0x80,0xBF⟩ : Begun).IsLong := by
  have hbits := h.bits
  have hle : x.low.toNat ≤ b.toNat ∧ b.toNat ≤ x.high.toNat :=
    ⟨UInt8.le_iff_toNat_le.mp hb.1,UInt8.le_iff_toNat_le.mp hb.2⟩
  refine ⟨by simp,.inl ?_⟩
  dsimp only
  omega

end Begun.IsLong

theorem toNat_ofNat_cases (n : Nat) : (Char.ofNat n).toNat = n ∨ (Char.ofNat n).toNat = 0 := by
  by_cases hn : n.isValidChar
  · have hof : Char.ofNat n = Char.ofNatAux n hn := dif_pos hn
    exact .inl (congrArg Char.toNat hof)
  · have hof : Char.ofNat n = '\x00' := dif_neg hn
    exact .inr (congrArg Char.toNat hof)

theorem ofNat_ne_newline {n : Nat} (h : n ≠ 10) : Char.ofNat n ≠ '\n' := by
  intro hc
  have hcases := toNat_ofNat_cases n
  rw [hc] at hcases
  rcases hcases with hn | hn
  · exact h hn.symm
  · contradiction

/-- A byte is a character, or starts one, or does neither. The ranges that shut out overlong forms keep a longer
character from being read as a single byte. -/
theorem lead_cases (b : UInt8) :
    lead b = .whole (Char.ofNat b.toNat) ∨ (∃ x, lead b = .begins x ∧ x.IsLong) ∨ lead b = .stray := by
  have hne : ∀ {n : UInt8}, b ≠ n → b.toNat ≠ n.toNat := fun hn he => hn (UInt8.toNat_inj.mp he)
  have hle : ∀ {n : UInt8}, ¬b < n → n.toNat ≤ b.toNat := fun hn => UInt8.le_iff_toNat_le.mp (UInt8.not_lt.mp hn)
  have hlt : ∀ {n : UInt8}, b < n → b.toNat < n.toNat := UInt8.lt_iff_toNat_lt.mp
  unfold lead
  by_cases h80 : b < 0x80
  · exact .inl (if_pos h80)
  rw [if_neg h80]
  apply Or.inr
  by_cases hc2 : b < 0xC2
  · exact .inr (if_pos hc2)
  rw [if_neg hc2]
  by_cases he0 : b < 0xE0
  · have hbits : 0 < b.toNat % 32 := by
      have : 194 ≤ b.toNat := hle hc2
      have : b.toNat < 224 := hlt he0
      omega
    exact .inl ⟨_,if_pos he0,Nat.le_refl 128,.inl hbits⟩
  rw [if_neg he0]
  by_cases hne0 : b = 0xE0
  · exact .inl ⟨_,if_pos hne0,by decide,by decide⟩
  rw [if_neg hne0]
  by_cases hned : b = 0xED
  · exact .inl ⟨_,if_pos hned,by decide,by decide⟩
  rw [if_neg hned]
  by_cases hf0 : b < 0xF0
  · have hbits : 0 < b.toNat % 16 := by
      have : 224 ≤ b.toNat := hle he0
      have : b.toNat ≠ 224 := hne hne0
      have : b.toNat < 240 := hlt hf0
      omega
    exact .inl ⟨_,if_pos hf0,Nat.le_refl 128,.inl hbits⟩
  rw [if_neg hf0]
  by_cases hnf0 : b = 0xF0
  · exact .inl ⟨_,if_pos hnf0,by decide,by decide⟩
  rw [if_neg hnf0]
  by_cases hf4 : b < 0xF4
  · have hbits : 0 < b.toNat % 8 := by
      have : 240 ≤ b.toNat := hle hf0
      have : b.toNat ≠ 240 := hne hnf0
      have : b.toNat < 244 := hlt hf4
      omega
    exact .inl ⟨_,if_pos hf4,Nat.le_refl 128,.inl hbits⟩
  rw [if_neg hf4]
  by_cases hnf4 : b = 0xF4
  · exact .inl ⟨_,if_pos hnf4,by decide,by decide⟩
  · exact .inr (if_neg hnf4)

namespace Decoder

/-- The characters read so far, the last one first, if what has begun ends here. -/
def ended (d : Decoder) : List Char :=
  match d.begun with
  | none => d.read
  | some _ => replacement :: d.read

theorem finish_eq (d : Decoder) : d.finish = d.ended.reverse := by
  unfold finish ended
  cases d.begun <;> rfl

/-- The second has read what the first has, with a carriage return before each newline. -/
structure Returns (d d' : Decoder) : Prop where
  read : d'.read.reverse = putBefore '\r' '\n' d.read.reverse
  begun : d'.begun = d.begun
  long : ∀ x ∈ d.begun, x.IsLong

variable {d d' : Decoder} {read read' : List Char} {b : UInt8} {c : Char}

theorem feed_ascii (h : ∀ x ∈ d.begun, x.IsLong) (hb : b.toNat < 128) : d.feed b = startWith d.ended b := by
  unfold feed ended
  cases hd : d.begun with
  | none => rfl
  | some x =>
    have hlow := (h x hd).low
    have hout : ¬(x.low ≤ b ∧ b ≤ x.high) := by
      intro hin
      have hle : x.low.toNat ≤ b.toNat := UInt8.le_iff_toNat_le.mp hin.1
      omega
    exact if_neg hout

theorem putBefore_push (h : read'.reverse = putBefore '\r' '\n' read.reverse) (hc : c ≠ '\n') :
    (c :: read').reverse = putBefore '\r' '\n' (c :: read).reverse := by
  rw [List.reverse_cons,List.reverse_cons,putBefore_append,h,putBefore_cons_of_ne hc]
  rfl

theorem Returns.ended (h : d.Returns d') : d'.ended.reverse = putBefore '\r' '\n' d.ended.reverse := by
  unfold Decoder.ended
  rw [h.begun]
  cases d.begun with
  | none => exact h.read
  | some x => exact putBefore_push h.read (by decide)

theorem returns_startWith (h : read'.reverse = putBefore '\r' '\n' read.reverse) (hb : b ≠ Byte.newline) :
    (startWith read b).Returns (startWith read' b) := by
  unfold startWith
  rcases lead_cases b with hl | ⟨x,hl,hx⟩ | hl
  · rw [hl]
    have hc : Char.ofNat b.toNat ≠ '\n' := ofNat_ne_newline fun hn => hb (UInt8.toNat_inj.mp hn)
    exact ⟨putBefore_push h hc,rfl,by simp⟩
  · rw [hl]
    exact ⟨h,rfl,by simpa using hx⟩
  · rw [hl]
    exact ⟨putBefore_push h (by decide),rfl,by simp⟩

theorem Returns.feed (h : d.Returns d') (hb : b ≠ Byte.newline) : (d.feed b).Returns (d'.feed b) := by
  have hread := h.read
  unfold Decoder.feed
  rw [h.begun]
  cases hd : d.begun with
  | none => exact returns_startWith hread hb
  | some x =>
    have hlong := h.long x hd
    dsimp only
    split
    · next hin =>
      cases ho : x.owed with
      | zero =>
        have hvalue := hlong.value ho b
        exact ⟨putBefore_push hread (ofNat_ne_newline (by omega)),rfl,by simp⟩
      | succ owed =>
        refine ⟨hread,rfl,?_⟩
        rintro y hy
        obtain rfl := Option.some.inj hy
        exact hlong.next hin owed
    · exact returns_startWith (putBefore_push hread (by decide)) hb

theorem Returns.feed_newline (h : d.Returns d') :
    (d.feed Byte.newline).Returns ((d'.feed Byte.carriageReturn).feed Byte.newline) := by
  have hlong' : ∀ x ∈ d'.begun, x.IsLong := h.begun ▸ h.long
  have hreturn : d'.feed Byte.carriageReturn = ⟨'\r' :: d'.ended,none⟩ := feed_ascii hlong' (by decide)
  have hnewline : d.feed Byte.newline = ⟨'\n' :: d.ended,none⟩ := feed_ascii h.long (by decide)
  rw [hreturn,hnewline]
  refine ⟨?_,rfl,by simp⟩
  change ('\n' :: '\r' :: d'.ended).reverse = putBefore '\r' '\n' ('\n' :: d.ended).reverse
  rw [List.reverse_cons,List.reverse_cons,List.reverse_cons,putBefore_append,h.ended,putBefore_cons_self,
    List.append_assoc]
  rfl

theorem Returns.foldl (h : d.Returns d') (bytes : List UInt8) :
    (bytes.foldl Decoder.feed d).Returns ((Byte.withReturns bytes).foldl Decoder.feed d') := by
  induction bytes generalizing d d' with
  | nil => exact h
  | cons b bytes ih =>
    unfold Byte.withReturns at ih ⊢
    by_cases hb : b = Byte.newline
    · subst hb
      rw [putBefore_cons_self]
      exact ih h.feed_newline
    · rw [putBefore_cons_of_ne hb]
      exact ih (h.feed hb)

end Decoder

/-- Carriage returns can be put in before or after a text is read. -/
theorem decode_withReturns (bytes : List UInt8) : decode (Byte.withReturns bytes) = withReturns (decode bytes) := by
  have hempty : Decoder.empty.Returns .empty := ⟨rfl,rfl,by simp [Decoder.empty]⟩
  have hchars : decodeChars (Byte.withReturns bytes) = putBefore '\r' '\n' (decodeChars bytes) := by
    rw [decodeChars,decodeChars,Decoder.finish_eq,Decoder.finish_eq]
    exact (hempty.foldl bytes).ended
  rw [decode,decode,withReturns,String.toList_ofList,hchars]

end Utf8

end SourceTags
