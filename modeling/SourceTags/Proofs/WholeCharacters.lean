import SourceTags.Proofs.NamesInOrder
import SourceTags.Proofs.Utf8RoundTrip

/-! # Characters are read whole

The scanner looks at single bytes, yet in a text no token starts or ends inside a character. Between two tiles a byte
of the ASCII range stands on one side, for a tile of more than a word has such a byte at its end, and a word ends
before one. The byte that is dropped after a less-than sign is the only one that could be part of a longer character.
What a literal leaves out of its text are its delimiters and backslashes. So the text of every token is a text, and
the name in a tag is that text.
-/
namespace SourceTags
open TokenStream
open Utf8 (IsText Cuts)

theorem Byte.ascii_of_isBlank {b : UInt8} (h : isBlank b = true) : b.toNat < 128 := by
  simp only [isBlank,Bool.or_eq_true,beq_iff_eq] at h
  rcases h with ((rfl | rfl) | rfl) | rfl <;> decide

theorem Byte.ascii_of_isDelimiter {b : UInt8} (h : isDelimiter b = true) : b.toNat < 128 := by
  simp only [isDelimiter,Bool.or_eq_true,beq_iff_eq] at h
  rcases h with (rfl | rfl) | rfl <;> decide

theorem Byte.ascii_of_not_isWord {b : UInt8} (h : isWord b = false) : b.toNat < 128 := by
  by_contra hhigh
  have hle : 128 ≤ b := UInt8.le_iff_toNat_le.mpr (Nat.le_of_not_lt hhigh)
  rw [isWord_of_high hle] at h
  contradiction

theorem TokenKind.ascii_of_ofByte? {b : UInt8} {kind : TokenKind} (h : ofByte? b = some kind) : b.toNat < 128 := by
  obtain ⟨before,after,hp,-⟩ := List.lookup_eq_some_iff.mp h
  have hall : ∀ x ∈ punctuation, x.1.toNat < 128 := by decide
  exact hall (b,kind) (hp ▸ by simp)

namespace Tile

variable {lexicon : Lexicon} {ends : Bool} {p : Position} {t : Tile} {u : Token} {tiles : List Tile} {rest : List UInt8}

/-- No character goes on from a tile to what follows it. -/
theorem Fits.cuts (h : t.Fits rest) (hd : ∀ b, t = dropped b → b.toNat < 128) : Cuts t.bytes rest := by
  have hlast : ∀ {x : UInt8} {bytes : List UInt8}, bytes.getLast? = some x → x.toNat < 128 → Cuts bytes rest :=
    fun hx hlow => .inr (.inl ⟨_,hx,hlow⟩)
  cases t with
  | blank b => exact hlast rfl (Byte.ascii_of_isBlank h)
  | lineComment text => exact hlast (x := Byte.newline) (by simp [bytes,List.getLast?_cons]) (by decide)
  | blockComment text closed =>
    cases closed with
    | true => exact hlast (x := Byte.slash) (by simp [bytes,List.getLast?_cons,List.getLast?_append]) (by decide)
    | false => exact .inl h.2
  | dropped b => exact hlast rfl (hd b rfl)
  | word first more =>
    cases rest with
    | nil => exact .inl rfl
    | cons b rest => exact .inr (.inr ⟨b,rfl,Byte.ascii_of_not_isWord (h.2.2 b rfl)⟩)
  | literal delimiter body closed =>
    cases closed with
    | true => exact hlast (x := delimiter) (by simp [bytes,List.getLast?_cons]) (Byte.ascii_of_isDelimiter h.1)
    | false => exact .inl (h.2.2 rfl)
  | punctuation b kind => exact hlast rfl (TokenKind.ascii_of_ofByte? h)
  | slash => exact hlast (x := Byte.slash) rfl (by decide)
  | arrow => exact hlast (x := Byte.dash) rfl (by decide)

theorem isText_values {body : List LiteralByte} {before : List UInt8}
    (h : IsText (before ++ body.flatMap LiteralByte.bytes)) : IsText (before ++ body.map LiteralByte.value) := by
  induction body generalizing before with
  | nil => exact h
  | cons u body ih =>
    have hplain : IsText (before ++ u.value :: body.flatMap LiteralByte.bytes) := by
      cases u with
      | plain b => exact h
      | escaped b => exact IsText.delete h (show Byte.backslash.toNat < 128 by decide)
    rw [List.append_cons] at hplain
    rw [List.map_cons,List.append_cons]
    exact ih hplain

theorem isText_token? (hu : t.token? lexicon p = some u) (h : t.Fits rest) (ht : IsText t.bytes) : IsText u.text := by
  cases t with
  | blank | lineComment | blockComment | dropped => contradiction
  | word first more =>
    obtain rfl := Option.some.inj hu
    have htext : (Token.ofWord lexicon (first :: more) p).text = first :: more := by
      unfold Token.ofWord
      split <;> rfl
    rw [htext]
    exact ht
  | literal delimiter body closed =>
    obtain rfl := Option.some.inj hu
    have hlow := Byte.ascii_of_isDelimiter h.1
    have hopened := IsText.delete (a := []) ht hlow
    have hbody : IsText (body.flatMap LiteralByte.bytes) := by
      cases closed with
      | true => simpa using hopened.delete (b := []) hlow
      | false => simpa using hopened
    have hvalues : IsText ([] ++ body.map LiteralByte.value) := isText_values hbody
    exact hvalues
  | punctuation | slash | arrow =>
    obtain rfl := Option.some.inj hu
    exact Utf8.isText_nil

theorem isText_tokens (ht : Tiled tiles) (hd : ∀ b, dropped b ∈ tiles → b.toNat < 128) (h : IsText (spell tiles)) :
    ∀ u ∈ tokens lexicon ends p tiles, IsText u.text := by
  induction tiles generalizing ends p with
  | nil => simp [tokens]
  | cons t tiles ih =>
    obtain ⟨hfits,htiles⟩ := ht
    rw [spell_cons] at h
    obtain ⟨hbytes,hspell⟩ := h.cut (hfits.cuts fun b hb => hd b (hb ▸ List.mem_cons_self ..))
    have hrest : ∀ {ends q}, ∀ u ∈ tokens lexicon ends q tiles, IsText u.text :=
      ih htiles (fun b hb => hd b (List.mem_cons_of_mem t hb)) hspell
    cases hu : t.token? lexicon p with
    | some u =>
      rw [tokens_token hu,List.forall_mem_cons]
      exact ⟨isText_token? hu hfits hbytes,hrest⟩
    | none =>
      cases hb : ends && t.breaksLine with
      | false =>
        rw [tokens_trivia hu hb]
        exact hrest
      | true =>
        obtain ⟨rfl,hbreak⟩ := Bool.and_eq_true_iff.mp hb
        rw [tokens_break hu hbreak,List.forall_mem_cons]
        exact ⟨Utf8.isText_nil,hrest⟩

end Tile

namespace SourceFile

variable {f : SourceFile}

theorem isText_content (h : IsText f.bytes) : IsText f.content := by
  have hbody : IsText f.body := by
    unfold body start
    cases hm : f.hasMark with
    | false => exact h
    | true =>
      obtain ⟨bytes,hbytes⟩ := List.isPrefixOf_iff_prefix.mp hm
      have hchar : String.utf8EncodeChar '\uFEFF' = mark := by decide
      rw [← hbytes,← hchar] at h
      rw [← hbytes,if_pos rfl,List.drop_left]
      exact h.of_char
  unfold content
  split
  · exact hbody.append ⟨['\n'],by decide⟩
  · exact hbody

theorem ascii_of_less (h : ∀ b, [Byte.less,b] <:+: f.bytes → b.toNat < 128) {b : UInt8}
    (hb : [Byte.less,b] <:+: f.content) : b.toNat < 128 := by
  have hbody : [Byte.less,b] <:+: f.body → b.toNat < 128 := by
    intro hb
    exact h b (hb.trans (List.drop_suffix _ _).isInfix)
  unfold content at hb
  split at hb
  · rcases List.infix_concat_iff.mp hb with hb | hb
    · obtain ⟨before,hb⟩ := hb
      have hlast : b = Byte.newline := by simpa using congrArg List.getLast? hb
      rw [hlast]
      decide
    · exact hbody hb
  · exact hbody hb

theorem isText_tokens (h : IsText f.bytes) (hless : ∀ b, [Byte.less,b] <:+: f.bytes → b.toNat < 128)
    (lexicon : Lexicon) : ∀ t ∈ f.tokens lexicon, IsText t.text := by
  obtain ⟨tiles,ht,hf⟩ := exists_tiles f.endsLine_content
  rw [tokens_tiles ht hf]
  refine Tile.isText_tokens ht ?_ (hf ▸ isText_content h)
  intro b hb
  apply ascii_of_less hless
  obtain ⟨before,after,rfl⟩ := List.append_of_mem hb
  exact ⟨Tile.spell before,Tile.spell after,by rw [← hf]; simp [Tile.bytes]⟩

end SourceFile

theorem TagSettings.tagsOf_unqualified {settings : TagSettings} (h : settings.qualifier = none)
    (names : List (DeclarationKind × Token)) : settings.tagsOf names = names.map fun x => Tag.ofToken x.1 x.2 := by
  unfold tagsOf
  induction names with
  | nil => rfl
  | cons x names ih =>
    rw [List.flatMap_cons,ih,withQualified_ofToken,h]
    rfl

/-- Where a file is a text in which no byte beyond ASCII follows a less-than sign, the text of every token is read
as it stands, and the tags that no scope qualifies have the texts of their tokens for names. -/
theorem tagSource_wholeCharacters {f : SourceFile} (h : IsText f.bytes)
    (hless : ∀ b, [Byte.less,b] <:+: f.bytes → b.toNat < 128) (lexicon : Lexicon) :
    (∀ t ∈ tokens (Scanner.ofSource f.reader lexicon), IsText t.text ∧ Utf8.encode t.name = t.text) ∧
    ∀ (settings : TagSettings) (given : Array Tag), settings.qualifier = none →
      ∃ names : List (DeclarationKind × Token),
        (names.map Prod.snd).Sublist (tokens (Scanner.ofSource f.reader lexicon)) ∧
        tagSource settings lexicon given f.reader =
          (given ++ names.map (fun x => Tag.ofToken x.1 x.2),names.length) ∧
        ∀ x ∈ names, Utf8.encode (Tag.ofToken x.1 x.2).name = x.2.text := by
  have htexts := SourceFile.isText_tokens h hless lexicon
  rw [f.tokens_reader]
  refine ⟨fun t ht => ⟨htexts t ht,Utf8.isText_iff.mp (htexts t ht)⟩,?_⟩
  intro settings given hqualifier
  obtain ⟨names,hp,hsub,-⟩ := Pass.inOrder_declarations (Pass.InOrder.start settings given (f.tokens lexicon))
    (f.settled_tokens lexicon) (f.scanned_tokens lexicon)
  rw [List.append_nil] at hsub
  have htags := settings.tagsOf_unqualified hqualifier names
  refine ⟨names,hsub,?_,?_⟩
  · rw [tagSource_eq_tokens,f.tokens_reader]
    have hcount : (settings.tagsOf names).length = names.length := by rw [htags,List.length_map]
    exact Prod.ext (htags ▸ hp.tags) (hp.count.trans hcount)
  · intro x hx
    have hmem : x.2 ∈ f.tokens lexicon := hsub.subset (List.mem_map_of_mem hx)
    exact Utf8.isText_iff.mp (htexts x.2 hmem)

def accentSample : SourceFile := ⟨Utf8.encode "fn größe() \x7b\x7d\nlet ñ = \"\\ü…\" // é\n"⟩

theorem tagSource_accentSample :
    IsText accentSample.bytes ∧ (∀ b, [Byte.less,b] <:+: accentSample.bytes → b.toNat < 128) ∧
    (∀ t ∈ tokens (Scanner.ofSource accentSample.reader .standard), IsText t.text ∧ Utf8.encode t.name = t.text) ∧
    ∃ names : List (DeclarationKind × Token),
      (names.map Prod.snd).Sublist (tokens (Scanner.ofSource accentSample.reader .standard)) ∧
      tagSource .standard .standard #[] accentSample.reader =
        ((#[] : Array Tag) ++ names.map (fun x => Tag.ofToken x.1 x.2),names.length) ∧
      ∀ x ∈ names, Utf8.encode (Tag.ofToken x.1 x.2).name = x.2.text := by
  have htext : IsText accentSample.bytes := ⟨_,rfl⟩
  have hless : ∀ b, [Byte.less,b] <:+: accentSample.bytes → b.toNat < 128 := by
    intro b hb
    exact absurd (hb.subset (List.mem_cons_self ..)) (by decide)
  obtain ⟨htokens,htags⟩ := tagSource_wholeCharacters htext hless .standard
  exact ⟨htext,hless,htokens,htags .standard #[] rfl⟩

end SourceTags
