import SourceTags.Proofs.TileRow
import SourceTags.Proofs.WellFormed

/-! # One file after another

A file that ends between declarations, with a newline between tokens, leaves nothing behind in a pass: what
follows it is read as a file of its own, only further on. A pass that finishes has asked for a declaration
where the input ended, and the last tile says that the newline is no part of a literal, of a block comment
or of a dropped pair.
-/
namespace SourceTags
open TokenStream

variable {τ : Type} [TokenStream τ]

/-- The input ends where the pass looks for a declaration, and not inside one. -/
inductive Pass.Finishes : Pass τ → Prop
  | endOfInput {p : Pass τ} {left rest} : advance p.input = .endOfInput left rest → Finishes p
  | declaration {p q : Pass τ} {t u rest} : advance p.input = .token t rest →
      (p.withInput rest).declaration t = .token u q → Finishes q → Finishes p

theorem simulation_append (more : List Token) :
    Simulation Eq (fun (s : τ) (ts : List Token) => tokens s ++ more = ts) False where
  kind h := congrArg _ h
  keyword h := congrArg _ h
  advance := by
    rintro s _ rfl
    cases hs : advance s with
    | token t rest =>
      rw [tokens_token hs]
      exact ⟨rfl,rfl⟩
    | endOfInput left rest => exact Reading.Follows.of_not id ..

/-- A pass that finishes reports the same where more tokens follow, and leaves all of these. -/
theorem Pass.Finishes.declarations_append {p : Pass τ} (h : p.Finishes) {q : Pass (List Token)} {more : List Token}
    (hi : tokens p.input ++ more = q.input) (hp : p.SameReports q) :
    ∃ q', q'.input = more ∧ p.declarations.2.SameReports q' ∧ q.declarations = q'.declarations := by
  induction h generalizing q with
  | @endOfInput p left rest he =>
    rw [tokens_endOfInput he,List.nil_append] at hi
    refine ⟨q,hi.symm,?_,rfl⟩
    rw [declarations_eq,he]
    exact hp
  | @declaration p p' t u rest ha hd _ ih =>
    rw [tokens_token ha,List.cons_append] at hi
    have hsame := (simulation_append more).declaration kept_sameReports (t := t) (p := p.withInput rest)
      (q := q.withInput (tokens rest ++ more)) rfl rfl hp
    rw [hd] at hsame
    cases hd' : (q.withInput (tokens rest ++ more)).declaration t with
    | endOfInput => rw [hd'] at hsame; exact hsame.elim
    | token u' p'' =>
      rw [hd'] at hsame
      obtain ⟨q',hq',hreports,hdecl⟩ := ih hsame.2.1 hsame.2.2
      refine ⟨q',hq',?_,?_⟩
      · rw [declarations_eq,ha]
        dsimp only
        rw [hd]
        exact hreports
      · rw [declarations_eq,← hi,advance_cons]
        dsimp only
        rw [hd']
        exact hdecl

theorem Pass.Finishes.of_simulation {υ : Type} [TokenStream υ] {T : Token → Token → Prop} {R : τ → υ → Prop}
    (sim : Simulation T R True) {q : Pass υ} (h : q.Finishes) {p : Pass τ} (hi : R p.input q.input) :
    p.Finishes := by
  induction h generalizing p with
  | @endOfInput q left rest he =>
    have ha := sim.advance hi
    cases hp : advance p.input with
    | endOfInput => exact .endOfInput hp
    | token => rw [hp,he] at ha; exact ha.elim
  | @declaration q q' t u rest ha hd _ ih =>
    have hadv := sim.advance hi
    cases hp : advance p.input with
    | endOfInput => rw [hp,ha] at hadv; exact absurd trivial hadv
    | token t' rest' =>
      rw [hp,ha] at hadv
      have kept : Kept T (fun (_ : Pass τ) (_ : Pass υ) => True) := ⟨fun _ _ _ => trivial,fun _ _ _ => trivial⟩
      have hdecl := sim.declaration kept (p := p.withInput rest') (q := q.withInput rest) hadv.1 hadv.2 trivial
      rw [hd] at hdecl
      cases hp' : (p.withInput rest').declaration t' with
      | endOfInput => rw [hp'] at hdecl; exact absurd trivial hdecl
      | token u' p' =>
        rw [hp'] at hdecl
        exact .declaration hp hp' (ih hdecl.2.1)

theorem WellFormed.finishes {w : List Token} {found : List (DeclarationKind × Token)} (hw : WellFormed w found)
    (hs : Scanned w) (p : Pass (List Token)) : (p.withInput w).Finishes := by
  induction hw generalizing p with
  | nil => exact .endOfInput rfl
  | filler ht _ ih => exact .declaration rfl (Pass.declaration_filler ht _) (ih hs.of_cons p)
  | @declaration d found e w _ hd he _ ih =>
    have hrest : Scanned (e :: w) := hs.of_append
    have hk : e.keyword = none := hrest e (List.mem_cons_self ..) (by simp [he])
    obtain ⟨kw,v,u,s,rfl,hr,hu⟩ := Pass.declaration_tokens hd he w p
    refine .declaration rfl hr ?_
    rcases hu with rfl | rfl
    · exact ih hrest.of_cons _
    · exact .declaration rfl (Pass.declaration_filler (Token.not_introduces hk) _) (ih hrest.of_cons _)

theorem SourceFile.finishes_of_wellFormed {settings : TagSettings} {lexicon : Lexicon} {tags : Array Tag}
    {f : SourceFile} {found : List (DeclarationKind × Token)} (hf : WellFormed (f.tokens lexicon) found) :
    (Pass.start settings tags (Scanner.ofSource f.reader lexicon)).Finishes := by
  have h := hf.finishes (f.scanned_tokens lexicon) (Pass.start settings tags [])
  exact h.of_simulation simulation_tokens rfl

/-- The tag in a source that has more text before it. -/
def Tag.behind (text : List UInt8) (tag : Tag) : Tag := { tag with pos := tag.pos.pastAll text }

theorem simulation_behind (text : List UInt8) :
    Simulation (fun t t' => t' = Token.behind text t)
      (fun (s s' : List Token) => s' = s.map (Token.behind text)) True where
  kind h := by rw [h]; rfl
  keyword h := by rw [h]; rfl
  advance := by
    rintro s _ rfl
    cases s with
    | nil => exact fun _ => trivial
    | cons t s => exact ⟨rfl,rfl⟩

theorem TagSettings.tagsFor_behind (settings : TagSettings) (kind : DeclarationKind) (text : List UInt8) (t : Token) :
    settings.tagsFor kind (t.behind text) = (settings.tagsFor kind t).map (Tag.behind text) := by
  unfold tagsFor
  split
  · cases settings.qualifier <;> rfl
  · rfl

/-- The second pass has reported what the first one has, further on and after some reports of its own. -/
def Pass.ReportsBehind (text : List UInt8) (tags : Array Tag) (count : Nat) (p q : Pass (List Token)) : Prop :=
  p.settings = q.settings ∧ q.tags = tags ++ p.tags.map (Tag.behind text) ∧ q.count = count + p.count

theorem kept_reportsBehind (text : List UInt8) (tags : Array Tag) (count : Nat) :
    Kept (fun t t' => t' = Token.behind text t) (Pass.ReportsBehind text tags count) where
  withInput _ _ h := h
  report := by
    rintro p q t _ kind rfl ⟨hs,ht,hc⟩
    have hfound : q.settings.tagsFor kind (t.behind text) = (p.settings.tagsFor kind t).map (Tag.behind text) := by
      rw [← hs,TagSettings.tagsFor_behind]
    refine ⟨hs,?_,?_⟩
    · simp only [Pass.report,hfound,ht]
      apply Array.ext'
      simp
    · simp only [Pass.report,hfound,hc,List.length_map,Nat.add_assoc]

theorem Pass.Finishes.tagTokens_append {settings : TagSettings} {tags : Array Tag} {s : τ}
    (h : (Pass.start settings tags s).Finishes) (text : List UInt8) (more : List Token) :
    tagTokens settings tags (tokens s ++ more.map (Token.behind text)) =
      ((Pass.start settings tags s).declarations.2.tags ++ (tagTokens settings #[] more).1.map (Tag.behind text),
        (Pass.start settings tags s).declarations.2.count + (tagTokens settings #[] more).2) := by
  let q := Pass.start settings tags (tokens s ++ more.map (Token.behind text))
  let r := Pass.start settings #[] more
  obtain ⟨q',hq,⟨hs,ht,hc⟩,hdecl⟩ := h.declarations_append (q := q) rfl ⟨rfl,rfl,rfl⟩
  have hsettings : q'.settings = settings := hs.symm.trans (Pass.settings_declarations _)
  have hbehind : Pass.ReportsBehind text q'.tags q'.count r q' := by
    refine ⟨hsettings.symm,?_,rfl⟩
    simp [r,Pass.start]
  have hr := (simulation_behind text).declarations (kept_reportsBehind text q'.tags q'.count) (p := r) (q := q') hq
    hbehind
  change (q.declarations.2.tags,q.declarations.2.count) = _
  rw [hdecl,hr.2.1,hr.2.2,ht,hc]
  rfl

/-- The tile ends in a newline that is read between tokens. -/
def Tile.IsLineEnd : Tile → Prop
  | .blank b => b = Byte.newline
  | .lineComment _ => True
  | _ => False

theorem Tile.IsLineEnd.breaks {t : Tile} (h : t.IsLineEnd) (lexicon : Lexicon) (p : Position) :
    t.token? lexicon p = none ∧ t.breaksLine = true := by
  cases t with
  | blank b => exact ⟨rfl,beq_iff_eq.mpr h⟩
  | lineComment => exact ⟨rfl,rfl⟩
  | _ => exact h.elim

theorem Tile.IsLineEnd.fits {t : Tile} (h : t.IsLineEnd) {rest : List UInt8} (ht : t.Fits rest) (rest' : List UInt8) :
    t.Fits rest' := by
  cases t with
  | blank | lineComment => exact ht
  | _ => exact h.elim

namespace SourceFile

/-- The bytes end in a newline, and that stands between tokens. -/
def EndsBetween (f : SourceFile) : Prop :=
  f.bytes.getLast? = some Byte.newline ∧
    ∃ tiles t, Tile.Tiled (tiles ++ [t]) ∧ Tile.spell (tiles ++ [t]) = f.content ∧ t.IsLineEnd

def followedBy (a b : SourceFile) : SourceFile := ⟨a.bytes ++ b.bytes⟩

variable {a b : SourceFile}

theorem hasMark_iff (f : SourceFile) : f.hasMark = true ↔ mark <+: f.bytes := List.isPrefixOf_iff_prefix

theorem start_le (f : SourceFile) : f.start ≤ f.bytes.length := by
  unfold start
  split
  · next h => exact ((hasMark_iff f).mp h).length_le
  · exact Nat.zero_le _

theorem hasMark_followedBy (ha : a.bytes.getLast? = some Byte.newline) (b : SourceFile) :
    (a.followedBy b).hasMark = a.hasMark := by
  rw [Bool.eq_iff_iff,hasMark_iff,hasMark_iff]
  constructor
  · intro h
    rcases List.prefix_or_prefix_of_prefix h (List.prefix_append a.bytes b.bytes) with h | h
    · exact h
    · have hmem : Byte.newline ∈ mark := h.subset (List.mem_of_getLast? ha)
      exact absurd hmem (by decide)
  · intro h
    exact h.trans (List.prefix_append ..)

theorem start_followedBy (ha : a.bytes.getLast? = some Byte.newline) (b : SourceFile) :
    (a.followedBy b).start = a.start := by rw [start,start,hasMark_followedBy ha]

theorem body_followedBy (ha : a.bytes.getLast? = some Byte.newline) (b : SourceFile) :
    (a.followedBy b).body = a.body ++ b.bytes := by
  rw [body,start_followedBy ha]
  exact List.drop_append_of_le_length a.start_le

theorem getLast?_body (ha : a.bytes.getLast? = some Byte.newline) : a.body.getLast? = some Byte.newline := by
  rw [body,List.getLast?_drop,if_neg ?_,ha]
  intro hle
  unfold start at hle
  split at hle
  · next h =>
    have hmark := ((hasMark_iff a).mp h).eq_of_length_le hle
    rw [← hmark] at ha
    exact absurd ha (by decide)
  · rw [List.length_eq_zero_iff.mp (Nat.le_zero.mp hle)] at ha
    contradiction

theorem content_of_newline (ha : a.bytes.getLast? = some Byte.newline) : a.content = a.body := by
  have hl : a.lacksNewline = false := by simp [lacksNewline,getLast?_body ha]
  rw [content,hl]
  rfl

theorem body_of_no_mark (hb : b.hasMark = false) : b.body = b.bytes := by
  rw [body,start,hb]
  rfl

/-- The newline that a file may lack is lacking after another file too, and nothing else is added. -/
theorem content_followedBy (ha : a.bytes.getLast? = some Byte.newline) (hb : b.hasMark = false) :
    (a.followedBy b).content = a.content ++ b.content := by
  have hbody := body_of_no_mark hb
  rw [content_of_newline ha]
  cases hbytes : b.bytes with
  | nil =>
    have hnil : (a.followedBy b).bytes.getLast? = some Byte.newline := by
      rw [followedBy,hbytes,List.append_nil,ha]
    rw [content_of_newline hnil,body_followedBy ha,hbytes]
    simp [content,lacksNewline,hbody,hbytes]
  | cons x more =>
    have hlacks : (a.followedBy b).lacksNewline = b.lacksNewline := by
      rw [lacksNewline,lacksNewline,body_followedBy ha,hbody,hbytes,List.getLast?_append,List.getLast?_cons]
      simp
    rw [content,content,hlacks,body_followedBy ha,hbody]
    split
    · rw [List.append_assoc]
    · rfl

theorem pastAll_content (ha : a.bytes.getLast? = some Byte.newline) :
    Position.pastAll ⟨1,a.start⟩ a.content = Position.pastAll ⟨1,0⟩ a.bytes := by
  have hstart : Position.pastAll ⟨1,0⟩ (a.bytes.take a.start) = ⟨1,a.start⟩ := by
    unfold start
    split
    · next h =>
      rw [← List.prefix_iff_eq_take.mp ((hasMark_iff a).mp h)]
      rfl
    · rfl
  rw [content_of_newline ha,body,← hstart,← Position.pastAll_append,List.take_append_drop]

theorem tokens_followedBy (ha : a.EndsBetween) (hb : b.hasMark = false) (lexicon : Lexicon) :
    (a.followedBy b).tokens lexicon =
      a.tokens lexicon ++ (b.tokens lexicon).map (Token.behind a.bytes) := by
  obtain ⟨hlast,tiles,t,htiled,hspell,hend⟩ := ha
  obtain ⟨more,hmore,hspell'⟩ := exists_tiles b.endsLine_content
  have hfits : ∀ rest, t.Fits rest := hend.fits (Tile.Tiled.last htiled)
  have hboth : Tile.spell (tiles ++ [t] ++ more) = (a.followedBy b).content := by
    rw [Tile.spell_append,hspell,hspell',content_followedBy hlast hb]
  have hbreaks := hend.breaks lexicon (Position.pastAll ⟨1,a.start⟩ (Tile.spell tiles))
  have hstart : b.start = 0 := by
    rw [start,hb]
    rfl
  rw [tokens_tiles (htiled.append hfits hmore) hboth,start_followedBy hlast,Tile.tokens_append,
    Tile.endsAfter_break hbreaks.1 hbreaks.2,hspell,pastAll_content hlast,Tile.tokens_behind,
    tokens_tiles htiled hspell,tokens_tiles hmore hspell',hstart]

end SourceFile

/-- The tags of a file after one that ends between declarations are the tags that it has alone, as many
lines and bytes further on as the first file has. -/
theorem tagSource_followedBy {settings : TagSettings} {lexicon : Lexicon} {tags : Array Tag} {a b : SourceFile}
    (hfinish : (Pass.start settings tags (Scanner.ofSource a.reader lexicon)).Finishes) (ha : a.EndsBetween)
    (hb : b.hasMark = false) :
    tagSource settings lexicon tags (a.followedBy b).reader =
      ((tagSource settings lexicon tags a.reader).1 ++
          (tagSource settings lexicon #[] b.reader).1.map (Tag.behind a.bytes),
        (tagSource settings lexicon tags a.reader).2 + (tagSource settings lexicon #[] b.reader).2) := by
  rw [tagSource_eq_tagTokens settings lexicon tags (a.followedBy b),SourceFile.tokens_followedBy ha hb,
    tagSource_eq_tagTokens settings lexicon #[] b]
  exact hfinish.tagTokens_append a.bytes (b.tokens lexicon)

theorem tagSource_followedBy_sample :
    tagSource ⟨.all,true,some "m"⟩ .standard #[] (sampleFile.followedBy ⟨Utf8.encode "type d int"⟩).reader =
      ((tagSource ⟨.all,true,some "m"⟩ .standard #[] sampleFile.reader).1 ++
          (tagSource ⟨.all,true,some "m"⟩ .standard #[] (SourceFile.reader ⟨Utf8.encode "type d int"⟩)).1.map
            (Tag.behind sampleFile.bytes),
        (tagSource ⟨.all,true,some "m"⟩ .standard #[] sampleFile.reader).2 +
          (tagSource ⟨.all,true,some "m"⟩ .standard #[] (SourceFile.reader ⟨Utf8.encode "type d int"⟩)).2) :=
  tagSource_followedBy (SourceFile.finishes_of_wellFormed wellFormed_sampleFile)
    ⟨by decide,_,_,tiled_sampleTiles.1,tiled_sampleTiles.2,rfl⟩ (by decide)

end SourceTags
