import Mathlib.Data.List.Basic
import Mathlib.Tactic.IntervalCases
import SourceTags.Text.Utf8

/-! # Text as bytes

Bytes that are the encoding of a text are read as that text. Such bytes are cut into two encodings wherever a byte
of the ASCII range stands on one side of the cut, since every byte of a longer character is above that range. So
ASCII bytes can be left out of an encoding, and what is left is one.
-/
namespace SourceTags.Utf8

/-- The bytes of some text. -/
def IsText (bytes : List UInt8) : Prop := ∃ cs : List Char, cs.flatMap String.utf8EncodeChar = bytes

section Decoding

open Decoder

variable {read : List Char} {bits owed k : ℕ} {low high : UInt8}

theorem toNat_ofNat {n : ℕ} (h : n < 256) : (UInt8.ofNat n).toNat = n := by
  rw [UInt8.toNat_ofNat',Nat.mod_eq_of_lt h]

theorem feed_continuation (hk : k < 64) (hlow : low.toNat ≤ k + 0x80) (hhigh : k + 0x80 ≤ high.toNat) :
    feed ⟨read,some ⟨bits,owed,low,high⟩⟩ (UInt8.ofNat (k + 0x80)) =
      match owed with
      | 0 => ⟨Char.ofNat (bits * 64 + k) :: read,none⟩
      | owed + 1 => ⟨read,some ⟨bits * 64 + k,owed,0x80,0xBF⟩⟩ := by
  have hb : (UInt8.ofNat (k + 0x80)).toNat = k + 0x80 := toNat_ofNat (by omega)
  have hin : low ≤ UInt8.ofNat (k + 0x80) ∧ UInt8.ofNat (k + 0x80) ≤ high := by
    rw [UInt8.le_iff_toNat_le,UInt8.le_iff_toNat_le,hb]
    exact ⟨hlow,hhigh⟩
  have hmod : (k + 0x80) % 64 = k := by omega
  cases owed with
  | zero =>
    unfold feed
    dsimp only
    rw [if_pos hin,hb,hmod]
  | succ owed =>
    unfold feed
    dsimp only
    rw [if_pos hin,hb,hmod]

theorem lead_two (h : 2 ≤ k) (hk : k < 32) : lead (UInt8.ofNat (k + 0xC0)) = .begins ⟨k,0,0x80,0xBF⟩ := by
  interval_cases k <;> rfl

theorem lead_three (hk : k < 16) {x : ℕ} (hx : 0x80 ≤ x ∧ x ≤ 0xBF) (hfirst : k = 0 → 0xA0 ≤ x)
    (hsurrogate : k = 13 → x ≤ 0x9F) :
    ∃ low high, lead (UInt8.ofNat (k + 0xE0)) = .begins ⟨k,1,low,high⟩ ∧ low.toNat ≤ x ∧ x ≤ high.toNat := by
  by_cases h0 : k = 0
  · subst h0
    exact ⟨0xA0,0xBF,rfl,hfirst rfl,hx.2⟩
  by_cases h13 : k = 13
  · subst h13
    exact ⟨0x80,0x9F,rfl,hx.1,hsurrogate rfl⟩
  · refine ⟨0x80,0xBF,?_,hx⟩
    interval_cases k <;> first | rfl | contradiction

theorem lead_four (hk : k ≤ 4) {x : ℕ} (hx : 0x80 ≤ x ∧ x ≤ 0xBF) (hfirst : k = 0 → 0x90 ≤ x)
    (hlast : k = 4 → x ≤ 0x8F) :
    ∃ low high, lead (UInt8.ofNat (k + 0xF0)) = .begins ⟨k,2,low,high⟩ ∧ low.toNat ≤ x ∧ x ≤ high.toNat := by
  by_cases h0 : k = 0
  · subst h0
    exact ⟨0x90,0xBF,rfl,hfirst rfl,hx.2⟩
  by_cases h4 : k = 4
  · subst h4
    exact ⟨0x80,0x8F,rfl,hx.1,hlast rfl⟩
  · refine ⟨0x80,0xBF,?_,hx⟩
    interval_cases k <;> first | rfl | contradiction

theorem feed_begins {b : UInt8} {x : Begun} (h : lead b = .begins x) : feed ⟨read,none⟩ b = ⟨read,some x⟩ := by
  change startWith read b = _
  rw [startWith,h]

/-- The bytes of a character are read as that character. -/
theorem foldl_utf8EncodeChar (read : List Char) (c : Char) :
    (String.utf8EncodeChar c).foldl feed ⟨read,none⟩ = ⟨c :: read,none⟩ := by
  have hvalid : c.val.toNat < 0xD800 ∨ 0xDFFF < c.val.toNat ∧ c.val.toNat < 0x110000 := c.valid
  have hofNat : Char.ofNat c.val.toNat = c := Char.ofNat_toNat c
  unfold String.utf8EncodeChar
  generalize c.val.toNat = v at hvalid hofNat
  dsimp only
  split
  · next h1 =>
    have hlow : UInt8.ofNat v < 0x80 := by
      rw [UInt8.lt_iff_toNat_lt,toNat_ofNat (by omega)]
      exact Nat.lt_succ_of_le h1
    have hlead : lead (UInt8.ofNat v) = .whole c := by
      rw [lead,if_pos hlow,toNat_ofNat (by omega),hofNat]
    change startWith read _ = _
    rw [startWith,hlead]
  split
  · have hfirst : lead (UInt8.ofNat (v / 64 % 0x20 + 0xC0)) = .begins ⟨v / 64 % 0x20,0,0x80,0xBF⟩ :=
      lead_two (by omega) (by omega)
    have hbits : v / 64 % 0x20 * 64 + v % 0x40 = v := by omega
    rw [List.foldl_cons,List.foldl_cons,feed_begins hfirst,feed_continuation (by omega) (by simp) (by simp; omega)]
    dsimp only
    rw [hbits,hofNat]
    rfl
  split
  · obtain ⟨low,high,hfirst,hlow,hhigh⟩ := lead_three (k := v / 4096 % 0x10) (x := v / 64 % 0x40 + 0x80) (by omega)
      (by omega) (by omega) (by omega)
    have hbits : (v / 4096 % 0x10 * 64 + v / 64 % 0x40) * 64 + v % 0x40 = v := by omega
    rw [List.foldl_cons,List.foldl_cons,List.foldl_cons,feed_begins hfirst,feed_continuation (by omega) hlow hhigh]
    dsimp only
    rw [feed_continuation (by omega) (by simp) (by simp; omega)]
    dsimp only
    rw [hbits,hofNat]
    rfl
  · obtain ⟨low,high,hfirst,hlow,hhigh⟩ := lead_four (k := v / 262144 % 0x08) (x := v / 4096 % 0x40 + 0x80) (by omega)
      (by omega) (by omega) (by omega)
    have hbits : ((v / 262144 % 0x08 * 64 + v / 4096 % 0x40) * 64 + v / 64 % 0x40) * 64 + v % 0x40 = v := by omega
    rw [List.foldl_cons,List.foldl_cons,List.foldl_cons,List.foldl_cons,feed_begins hfirst,
      feed_continuation (by omega) hlow hhigh]
    dsimp only
    rw [feed_continuation (by omega) (by simp) (by simp; omega)]
    dsimp only
    rw [feed_continuation (by omega) (by simp) (by simp; omega)]
    dsimp only
    rw [hbits,hofNat]
    rfl

theorem foldl_flatMap (read cs : List Char) :
    (cs.flatMap String.utf8EncodeChar).foldl feed ⟨read,none⟩ = ⟨cs.reverse ++ read,none⟩ := by
  induction cs generalizing read with
  | nil => rfl
  | cons c cs ih =>
    rw [List.flatMap_cons,List.foldl_append,foldl_utf8EncodeChar,ih,List.reverse_cons,List.append_assoc]
    rfl

end Decoding

theorem isText_iff {bytes : List UInt8} : IsText bytes ↔ encode (decode bytes) = bytes := by
  constructor
  · rintro ⟨cs,rfl⟩
    have hchars : decodeChars (cs.flatMap String.utf8EncodeChar) = cs := by
      rw [decodeChars,Decoder.empty,foldl_flatMap,List.append_nil]
      exact List.reverse_reverse cs
    rw [decode,hchars,encode,String.toList_ofList]
  · intro h
    exact ⟨_,h⟩

instance (bytes : List UInt8) : Decidable (IsText bytes) := decidable_of_iff _ isText_iff.symm

theorem isText_nil : IsText [] := ⟨[],rfl⟩

theorem IsText.append {a b : List UInt8} (ha : IsText a) (hb : IsText b) : IsText (a ++ b) := by
  obtain ⟨cs,rfl⟩ := ha
  obtain ⟨ds,rfl⟩ := hb
  exact ⟨cs ++ ds,List.flatMap_append⟩

theorem utf8EncodeChar_cases (c : Char) :
    (∃ b, String.utf8EncodeChar c = [b]) ∨ ∀ b ∈ String.utf8EncodeChar c, 128 ≤ b.toNat := by
  have hvalid : c.val.toNat < 0xD800 ∨ 0xDFFF < c.val.toNat ∧ c.val.toNat < 0x110000 := c.valid
  have hhigh : ∀ {n : ℕ}, 128 ≤ n → n < 256 → 128 ≤ (UInt8.ofNat n).toNat := by
    intro n hn hlt
    rwa [toNat_ofNat hlt]
  unfold String.utf8EncodeChar
  generalize c.val.toNat = v at hvalid
  dsimp only
  split
  · exact .inl ⟨_,rfl⟩
  · right
    split
    · simp only [List.forall_mem_cons]
      exact ⟨hhigh (by omega) (by omega),hhigh (by omega) (by omega),by simp⟩
    split
    · simp only [List.forall_mem_cons]
      exact ⟨hhigh (by omega) (by omega),hhigh (by omega) (by omega),hhigh (by omega) (by omega),by simp⟩
    · simp only [List.forall_mem_cons]
      exact ⟨hhigh (by omega) (by omega),hhigh (by omega) (by omega),hhigh (by omega) (by omega),
        hhigh (by omega) (by omega),by simp⟩

/-- A byte of the ASCII range stands on one side of the cut, or nothing does. -/
def Cuts (a b : List UInt8) : Prop :=
  b = [] ∨ (∃ x ∈ a.getLast?, x.toNat < 128) ∨ ∃ x ∈ b.head?, x.toNat < 128

/-- A text is cut beside a byte of the ASCII range. -/
theorem IsText.cut {a b : List UInt8} (h : IsText (a ++ b)) (hc : Cuts a b) : IsText a ∧ IsText b := by
  obtain ⟨cs,hcs⟩ := h
  induction cs generalizing a with
  | nil =>
    obtain ⟨rfl,rfl⟩ := List.append_eq_nil_iff.mp hcs.symm
    exact ⟨isText_nil,isText_nil⟩
  | cons c cs ih =>
    rw [List.flatMap_cons] at hcs
    have hone : IsText (String.utf8EncodeChar c) := ⟨[c],List.append_nil _⟩
    have hall : IsText (cs.flatMap String.utf8EncodeChar) := ⟨cs,rfl⟩
    rcases List.append_eq_append_iff.mp hcs with ⟨a',rfl,hrest⟩ | ⟨b',hchar,rfl⟩
    · cases a' with
      | nil =>
        rw [List.nil_append] at hrest
        exact ⟨by simpa using hone,hrest ▸ hall⟩
      | cons x a' =>
        have hlast : (String.utf8EncodeChar c ++ x :: a').getLast? = (x :: a').getLast? :=
          List.getLast?_append_of_ne_nil _ (by simp)
        obtain ⟨ha,hb⟩ := ih (a := x :: a') (by rwa [Cuts,hlast] at hc) hrest
        exact ⟨hone.append ha,hb⟩
    · cases a with
      | nil =>
        rw [List.nil_append] at hchar
        exact ⟨isText_nil,hchar ▸ hone.append hall⟩
      | cons x a =>
        cases b' with
        | nil =>
          rw [List.append_nil] at hchar
          exact ⟨hchar ▸ hone,hall⟩
        | cons y b' =>
          have hhigh : ∀ z ∈ x :: a ++ y :: b', 128 ≤ z.toNat := by
            rcases utf8EncodeChar_cases c with ⟨z,hz⟩ | h
            · rw [hz] at hchar
              simp at hchar
            · exact hchar ▸ h
          rcases hc with hnil | ⟨z,hz,hlow⟩ | ⟨z,hz,hlow⟩
          · contradiction
          · have := hhigh z (List.mem_append_left _ (List.mem_of_mem_getLast? hz))
            omega
          · obtain rfl := Option.some.inj hz
            have := hhigh y (by simp)
            omega

theorem IsText.delete {a b : List UInt8} {x : UInt8} (h : IsText (a ++ x :: b)) (hx : x.toNat < 128) :
    IsText (a ++ b) := by
  obtain ⟨ha,hb⟩ := h.cut (.inr (.inr ⟨x,rfl,hx⟩))
  have hcut : Cuts [x] b := .inr (.inl ⟨x,rfl,hx⟩)
  exact ha.append (IsText.cut (a := [x]) hb hcut).2

theorem IsText.of_char {c : Char} {bytes : List UInt8} (h : IsText (String.utf8EncodeChar c ++ bytes)) :
    IsText bytes := by
  obtain ⟨cs,hcs⟩ := h
  cases cs with
  | nil => simp at hcs
  | cons d cs =>
    rw [List.flatMap_cons] at hcs
    have hdecode := congrArg (fun l => (List.toByteArray l).utf8DecodeChar? 0) hcs
    simp only [List.toByteArray_append,ByteArray.utf8DecodeChar?_utf8EncodeChar_append] at hdecode
    obtain rfl := Option.some.inj hdecode
    exact ⟨cs,List.append_cancel_left hcs⟩

end SourceTags.Utf8
