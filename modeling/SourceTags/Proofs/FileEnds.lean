import SourceTags.Proofs.Concatenation
import SourceTags.Proofs.Lockstep

/-! # Both ends of a file

What a file says is in its content, and neither the mark that a file may start with nor the newline that its last
line may lack is a part of that. With the mark before it all stands three bytes further on, and nothing else changes;
with the newline written out instead of owed nothing changes at all.
-/
namespace SourceTags
open TokenStream

namespace SourceFile

def withMark (f : SourceFile) : SourceFile := ⟨mark ++ f.bytes⟩

def withNewline (f : SourceFile) : SourceFile := ⟨f.bytes ++ [Byte.newline]⟩

variable {f g : SourceFile}

theorem content_congr (h : f.body = g.body) : f.content = g.content := by
  unfold content lacksNewline
  rw [h]

theorem hasMark_withMark (f : SourceFile) : f.withMark.hasMark = true := by
  rw [hasMark_iff]
  exact List.prefix_append mark f.bytes

theorem start_withMark (f : SourceFile) : f.withMark.start = mark.length := by
  unfold start
  rw [hasMark_withMark,if_pos rfl]

theorem content_withMark (h : f.hasMark = false) : f.withMark.content = f.content := by
  apply content_congr
  rw [body,start_withMark,body_of_no_mark h]
  exact List.drop_left ..

/-- The mark has no newline in it, so a newline at the end of a file does not complete it. -/
theorem start_withNewline (f : SourceFile) : f.withNewline.start = f.start := by
  have hmark : f.withNewline.hasMark = f.hasMark := by
    rw [Bool.eq_iff_iff,hasMark_iff,hasMark_iff]
    constructor
    · intro h
      rcases List.prefix_concat_iff.mp h with heq | h
      · have hmem : Byte.newline ∈ mark := by
          rw [heq]
          exact List.mem_append_right _ List.mem_cons_self
        exact absurd hmem (by decide)
      · exact h
    · intro h
      exact h.trans (List.prefix_append ..)
  unfold start
  rw [hmark]

theorem body_withNewline (f : SourceFile) : f.withNewline.body = f.body ++ [Byte.newline] := by
  rw [body,start_withNewline]
  exact List.drop_append_of_le_length f.start_le

theorem content_withNewline (hbody : f.body ≠ []) (hlast : f.body.getLast? ≠ some Byte.newline) :
    f.withNewline.content = f.content := by
  have hlacks : f.lacksNewline = true := by
    unfold lacksNewline
    simp [hbody,hlast]
  have hwritten : f.withNewline.lacksNewline = false := by
    unfold lacksNewline
    rw [body_withNewline]
    simp
  rw [content,content,hlacks,hwritten,body_withNewline]
  rfl

theorem tokens_withMark (h : f.hasMark = false) (lexicon : Lexicon) :
    f.withMark.tokens lexicon = (f.tokens lexicon).map (Token.behind mark) := by
  obtain ⟨tiles,htiled,hspell⟩ := exists_tiles f.endsLine_content
  have hspell' : Tile.spell tiles = f.withMark.content := hspell.trans (content_withMark h).symm
  have hstart : f.start = 0 := by
    rw [start,h]
    rfl
  have hplace : (⟨1,mark.length⟩ : Position) = (⟨1,0⟩ : Position).pastAll mark := rfl
  rw [tokens_tiles htiled hspell',tokens_tiles htiled hspell,start_withMark,hstart,hplace,Tile.tokens_behind]

theorem tokens_withNewline (hbody : f.body ≠ []) (hlast : f.body.getLast? ≠ some Byte.newline) (lexicon : Lexicon) :
    f.withNewline.tokens lexicon = f.tokens lexicon := by
  have hcursor : f.withNewline.cursor = f.cursor := by
    rw [cursor,cursor,start_withNewline,content_withNewline hbody hlast]
  rw [tokens_cursor,tokens_cursor,hcursor]

end SourceFile

theorem tagTokens_behind (settings : TagSettings) (given : Array Tag) (text : List UInt8) (ts : List Token) :
    tagTokens settings given (ts.map (Token.behind text)) =
      (given ++ (tagTokens settings #[] ts).1.map (Tag.behind text),(tagTokens settings #[] ts).2) := by
  let p := Pass.start settings #[] ts
  let q := Pass.start settings given (ts.map (Token.behind text))
  have hstart : Pass.ReportsBehind text given 0 p q := by
    refine ⟨rfl,?_,rfl⟩
    simp [p,q,Pass.start]
  obtain ⟨-,htags,hcount⟩ := (simulation_behind text).declarations (kept_reportsBehind text given 0) rfl hstart
  exact Prod.ext htags (hcount.trans (Nat.zero_add _))

/-- Neither end of a file makes a difference. If a file does not start with a mark, its tokens and tags are those of
the file with a mark before it, which stand three bytes further on and on the same lines. If something follows the
mark and its last line lacks the newline, its tokens and tags are those of the file with the newline written out,
and they stand in the same places. -/
theorem tagSource_fileEnds (f : SourceFile) (settings : TagSettings) (lexicon : Lexicon) (given : Array Tag) :
    (f.hasMark = false →
      tokens (Scanner.ofSource f.withMark.reader lexicon) =
        (tokens (Scanner.ofSource f.reader lexicon)).map
          (fun t => { t with pos := ⟨t.pos.line,t.pos.offset + 3⟩ }) ∧
      tagSource settings lexicon given f.withMark.reader =
        (given ++ (tagSource settings lexicon #[] f.reader).1.map
            (fun tag => { tag with pos := ⟨tag.pos.line,tag.pos.offset + 3⟩ }),
          (tagSource settings lexicon #[] f.reader).2)) ∧
    (f.body ≠ [] → f.body.getLast? ≠ some Byte.newline →
      tokens (Scanner.ofSource f.withNewline.reader lexicon) = tokens (Scanner.ofSource f.reader lexicon) ∧
      tagSource settings lexicon given f.withNewline.reader = tagSource settings lexicon given f.reader) := by
  constructor
  · intro h
    have htokens := SourceFile.tokens_withMark h lexicon
    constructor
    · rw [SourceFile.tokens_reader,SourceFile.tokens_reader]
      exact htokens
    · rw [tagSource_eq_tokens,tagSource_eq_tokens,SourceFile.tokens_reader,SourceFile.tokens_reader,htokens]
      exact tagTokens_behind settings given SourceFile.mark (f.tokens lexicon)
  · intro hbody hlast
    have htokens := SourceFile.tokens_withNewline hbody hlast lexicon
    constructor
    · exact htokens
    · rw [tagSource_eq_tagTokens,tagSource_eq_tagTokens,htokens]

def openSample : SourceFile := ⟨Utf8.encode "fn f() \x7b\x7d\nlet a = 'b' /* *"⟩

theorem tagSource_fileEnds_sample :
    openSample.hasMark = false ∧ openSample.withMark.body ≠ [] ∧
    openSample.withMark.body.getLast? ≠ some Byte.newline ∧
    tokens (Scanner.ofSource openSample.withMark.withNewline.reader .standard) =
      (tokens (Scanner.ofSource openSample.reader .standard)).map
        (fun t => { t with pos := ⟨t.pos.line,t.pos.offset + 3⟩ }) ∧
    (tagSource ⟨.all,true,some "m"⟩ .standard #[] openSample.withMark.withNewline.reader).2 =
      (tagSource ⟨.all,true,some "m"⟩ .standard #[] openSample.reader).2 := by
  have hmark : openSample.hasMark = false := by decide
  have hbody : openSample.withMark.body ≠ [] := by decide
  have hlast : openSample.withMark.body.getLast? ≠ some Byte.newline := by decide
  obtain ⟨htokens,htags⟩ := (tagSource_fileEnds openSample ⟨.all,true,some "m"⟩ .standard #[]).1 hmark
  obtain ⟨htokens',htags'⟩ :=
    (tagSource_fileEnds openSample.withMark ⟨.all,true,some "m"⟩ .standard #[]).2 hbody hlast
  refine ⟨hmark,hbody,hlast,htokens'.trans htokens,?_⟩
  rw [htags',htags]

end SourceTags
