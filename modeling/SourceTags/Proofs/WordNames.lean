import SourceTags.Proofs.BindingEnd
import SourceTags.Proofs.CarriageReturns
import SourceTags.Proofs.ReadTokens

/-! # Names without tabs and newlines

Whatever bytes are read as text, a tab or a newline in the text is one of the bytes: several bytes make a character
beyond them, as do bytes that make none. No byte of a word is a tab or a newline, so the name of a word has none, and
neither has a name that a scope without them qualifies.
-/
namespace SourceTags
open TokenStream

namespace Utf8

/-- A character that only a single byte is read as, such as a tab or a newline. -/
def IsLow (c : Char) : Prop := 0 < c.toNat ∧ c.toNat < 64

theorem toNat_of_isLow {n : ℕ} (h : IsLow (Char.ofNat n)) : (Char.ofNat n).toNat = n :=
  (toNat_ofNat_cases n).resolve_right h.1.ne'

namespace Decoder

variable {d : Decoder} {bytes : List UInt8} {b : UInt8} {c : Char}

/-- The low characters read so far are bytes, and what has begun becomes none of them. -/
structure Keeps (bytes : List UInt8) (d : Decoder) : Prop where
  read : ∀ c ∈ d.read, IsLow c → UInt8.ofNat c.toNat ∈ bytes
  begun : ∀ x ∈ d.begun, x.IsLong

namespace Keeps

theorem put (h : d.Keeps bytes) (hc : IsLow c → UInt8.ofNat c.toNat ∈ bytes) :
    (⟨c :: d.read,none⟩ : Decoder).Keeps bytes :=
  ⟨List.forall_mem_cons.mpr ⟨hc,h.read⟩,by simp⟩

theorem put_replacement (h : d.Keeps bytes) : (⟨replacement :: d.read,none⟩ : Decoder).Keeps bytes :=
  h.put fun hc => absurd hc.2 (by decide)

theorem begin {x : Begun} (h : d.Keeps bytes) (hx : x.IsLong) : (⟨d.read,some x⟩ : Decoder).Keeps bytes := by
  refine ⟨h.read,?_⟩
  intro y hy
  obtain rfl := Option.some.inj hy
  exact hx

theorem startWith (h : d.Keeps bytes) (hb : b ∈ bytes) : (Decoder.startWith d.read b).Keeps bytes := by
  unfold Decoder.startWith
  rcases lead_cases b with hl | ⟨x,hl,hx⟩ | hl
  · rw [hl]
    refine h.put ?_
    intro hlow
    rwa [toNat_of_isLow hlow,UInt8.ofNat_toNat]
  · rw [hl]
    exact h.begin hx
  · rw [hl]
    exact h.put_replacement

theorem feed (h : d.Keeps bytes) (hb : b ∈ bytes) : (d.feed b).Keeps bytes := by
  unfold Decoder.feed
  split
  · exact h.startWith hb
  · next x hx =>
    have hlong := h.begun x hx
    split
    · next hrange =>
      dsimp only
      split
      · next ho =>
        have hvalue := hlong.value ho b
        refine h.put ?_
        intro hlow
        have heq := toNat_of_isLow hlow
        have hlt := hlow.2
        omega
      · next owed _ => exact h.begin (hlong.next hrange owed)
    · exact h.put_replacement.startWith hb

theorem foldl (h : d.Keeps bytes) {fed : List UInt8} (hfed : ∀ b ∈ fed, b ∈ bytes) :
    (fed.foldl Decoder.feed d).Keeps bytes := by
  induction fed generalizing d with
  | nil => exact h
  | cons b fed ih =>
    obtain ⟨hb,hfed⟩ := List.forall_mem_cons.mp hfed
    exact ih (h.feed hb) hfed

end Keeps

end Decoder

theorem mem_of_mem_decodeChars {bytes : List UInt8} {c : Char} (h : c ∈ decodeChars bytes) (hc : IsLow c) :
    UInt8.ofNat c.toNat ∈ bytes := by
  have hempty : Decoder.empty.Keeps bytes := ⟨by simp [Decoder.empty],by simp [Decoder.empty]⟩
  have hall := hempty.foldl fun _ hb => hb
  unfold decodeChars Decoder.finish at h
  split at h
  · exact hall.read c (List.mem_reverse.mp h) hc
  · exact hall.put_replacement.read c (List.mem_reverse.mp h) hc

end Utf8

/-- A text that can stand between two tabs of a line. -/
def IsField (text : String) : Prop := '\t' ∉ text.toList ∧ '\n' ∉ text.toList

instance (text : String) : Decidable (IsField text) :=
  inferInstanceAs (Decidable ('\t' ∉ text.toList ∧ '\n' ∉ text.toList))

theorem IsField.append {a b : String} (ha : IsField a) (hb : IsField b) : IsField (a ++ b) := by
  unfold IsField
  simp only [String.toList_append,List.mem_append,not_or]
  exact ⟨⟨ha.1,hb.1⟩,⟨ha.2,hb.2⟩⟩

theorem Tile.IsWordText.isBlank {text : List UInt8} (h : IsWordText text) : ∀ b ∈ text, Byte.isBlank b = false := by
  cases text with
  | nil => exact h.elim
  | cons first more => exact List.forall_mem_cons.mpr ⟨h.1.1,fun b hb => isBlank_of_isWord (h.2 b hb)⟩

theorem isField_name {t : Token} (h : Tile.IsWordText t.text) : IsField t.name := by
  have hnone : ∀ c, Utf8.IsLow c → Byte.isBlank (UInt8.ofNat c.toNat) = true → c ∉ t.name.toList := by
    intro c hc hblank hmem
    rw [Token.name,Utf8.decode,String.toList_ofList] at hmem
    have hfalse := h.isBlank _ (Utf8.mem_of_mem_decodeChars hmem hc)
    rw [hblank] at hfalse
    contradiction
  exact ⟨hnone '\t' ⟨by decide,by decide⟩ rfl,hnone '\n' ⟨by decide,by decide⟩ rfl⟩

namespace TagSettings

variable {settings : TagSettings}

theorem isField_withQualified (hscope : ∀ scope ∈ settings.scope, IsField scope) {tag : Tag} (h : IsField tag.name) :
    ∀ tag' ∈ settings.withQualified tag, IsField tag'.name := by
  unfold withQualified
  split
  · next scope hs =>
    have hdot : IsField "." := by decide
    have hqualified : IsField (scope ++ "." ++ tag.name) := ((hscope scope hs).append hdot).append h
    split
    · simp only [List.forall_mem_cons]
      exact ⟨h,hqualified,by simp⟩
    · simpa using h
  · simpa using h

theorem kind_withQualified {tag tag' : Tag} (h : tag' ∈ settings.withQualified tag) : tag'.kind = tag.kind := by
  unfold withQualified at h
  split at h
  · split at h
    · simp only [List.mem_cons,List.not_mem_nil,or_false] at h
      rcases h with rfl | rfl <;> rfl
    · rw [List.mem_singleton.mp h]
  · rw [List.mem_singleton.mp h]

end TagSettings

section Scanner

variable {σ : Type} [ByteSource σ] {t : Token} {z : Scanner σ}

theorem settled_tokens (z : Scanner σ) : Settled (tokens z) := by
  obtain ⟨z',hz,-⟩ := exists_gives (List.append_nil (tokens z)).symm
  exact (settled_of_gives hz).2

theorem isWordText_of_mem_tokens (ht : t ∈ tokens z) (hk : t.kind = .identifier ∨ t.kind = .keyword) :
    Tile.IsWordText t.text := by
  have h := isPrintable_of_mem_tokens ht
  unfold Token.IsPrintable at h
  rcases hk with hk | hk
  all_goals
    rw [hk] at h
    exact h.1

/-- Whatever source a pass reads, its names are tokens that it reads, and the name of a function is an identifier. -/
theorem exists_names (settings : TagSettings) (lexicon : Lexicon) (given : Array Tag) (source : σ) :
    ∃ names : List (DeclarationKind × Token),
      (tagSource settings lexicon given source).1 = given ++ settings.tagsOf names ∧
      (names.map Prod.snd).Sublist (tokens (Scanner.ofSource source lexicon)) ∧
      ∀ x ∈ names, Nameable x.1 x.2 := by
  have hstart := Pass.InOrder.start settings given (tokens (Scanner.ofSource source lexicon))
  obtain ⟨names,hp,hsub,hnames⟩ := Pass.inOrder_declarations hstart (settled_tokens _) (scanned_tokens _)
  rw [List.append_nil] at hsub
  rw [tagSource_eq_tokens]
  exact ⟨names,hp.tags,hsub,fun x hx => (hnames x hx).2⟩

end Scanner

end SourceTags
