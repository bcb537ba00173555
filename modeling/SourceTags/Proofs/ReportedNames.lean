import SourceTags.Proofs.Settings
import SourceTags.Proofs.Lockstep
import SourceTags.Proofs.WellFormed

/-! # Names depend on the tokens alone

A pass reports tokens that it reads as names. Which of its tokens these are is decided by kinds and keywords
alone: streams that agree in them have their names at the same indices, however the tokens are spelled and
wherever they stand. So a pass over a source is a pass over the list of its tokens, and where the tokens of two
sources agree in kind, keyword and text the tags agree in all but their positions.
-/
namespace SourceTags
open TokenStream

namespace Token

/-- The tokens agree in all that a pass looks at. -/
def SameRole (t u : Token) : Prop := t.kind = u.kind ∧ t.keyword = u.keyword

/-- The tokens differ in their positions at most. -/
def Alike (t u : Token) : Prop := t.kind = u.kind ∧ t.keyword = u.keyword ∧ t.text = u.text

instance (t u : Token) : Decidable (t.Alike u) :=
  inferInstanceAs (Decidable (t.kind = u.kind ∧ t.keyword = u.keyword ∧ t.text = u.text))

variable {t u : Token}

theorem Alike.sameRole (h : t.Alike u) : t.SameRole u := ⟨h.1,h.2.1⟩

theorem Alike.name_eq (h : t.Alike u) : t.name = u.name := congrArg Utf8.decode h.2.2

end Token

namespace TagSettings

/-- The tags of the names: one for each name, and after it the one that the scope qualifies. -/
def tagsOf (s : TagSettings) (names : List (DeclarationKind × Token)) : List Tag :=
  names.flatMap fun x => s.withQualified (.ofToken x.1 x.2)

def wanted (s : TagSettings) {α : Type} (kind : DeclarationKind) (name : α) : List (DeclarationKind × α) :=
  if s.kinds.contains kind then [(kind,name)] else []

variable (s : TagSettings)

theorem tagsOf_append (names more : List (DeclarationKind × Token)) :
    s.tagsOf (names ++ more) = s.tagsOf names ++ s.tagsOf more := List.flatMap_append

theorem tagsFor_eq_tagsOf (kind : DeclarationKind) (name : Token) :
    s.tagsFor kind name = s.tagsOf (s.wanted kind name) := by
  unfold tagsFor wanted
  cases s.kinds.contains kind with
  | false => rfl
  | true => exact (s.withQualified_ofToken kind name).symm.trans (List.append_nil _).symm

theorem mem_wanted {α : Type} {kind : DeclarationKind} {name : α} {x : DeclarationKind × α}
    (h : x ∈ s.wanted kind name) : x = (kind,name) ∧ s.kinds.contains kind = true := by
  unfold wanted at h
  split at h
  · next hk => exact ⟨List.mem_singleton.mp h,hk⟩
  · contradiction

end TagSettings

/-- What a tag says of a name, apart from where it stands. -/
def Tag.shown (tag : Tag) : String × DeclarationKind := (tag.name,tag.kind)

theorem TagSettings.shown_withQualified (s : TagSettings) {tag tag' : Tag} (h : tag.shown = tag'.shown) :
    (s.withQualified tag).map Tag.shown = (s.withQualified tag').map Tag.shown := by
  obtain ⟨hname,hkind⟩ := Prod.mk.inj h
  unfold withQualified
  cases s.scope with
  | none => simp only [List.map_cons,List.map_nil,h]
  | some scope =>
    dsimp only
    split <;> simp [Tag.shown,hname,hkind]

/-- The names that stand in the list at the given indices. -/
def namesAt (ts : List Token) (found : List (DeclarationKind × Nat)) : List (DeclarationKind × Token) :=
  found.map fun x => (x.1,ts.getD x.2 .fresh)

theorem namesAt_append (ts : List Token) (found more : List (DeclarationKind × Nat)) :
    namesAt ts (found ++ more) = namesAt ts found ++ namesAt ts more := List.map_append

theorem namesAt_wanted (ts : List Token) (settings : TagSettings) (kind : DeclarationKind) (i : Nat) :
    namesAt ts (settings.wanted kind i) = settings.wanted kind (ts.getD i .fresh) := by
  unfold TagSettings.wanted
  split <;> rfl

theorem getD_of_getElem? {ts : List Token} {i : Nat} {t : Token} (h : ts[i]? = some t) : ts.getD i .fresh = t := by
  rw [List.getD_eq_getElem?_getD,h]
  rfl

section Indices

variable {ts us : List Token} {found : List (DeclarationKind × Nat)}

theorem forall₂_namesAt {R : Token → Token → Prop} (h : List.Forall₂ R ts us)
    (hfound : ∀ x ∈ found, x.2 < ts.length) :
    List.Forall₂ (fun x y => x.1 = y.1 ∧ R x.2 y.2) (namesAt ts found) (namesAt us found) := by
  induction found with
  | nil => exact .nil
  | cons x found ih =>
    obtain ⟨hx,hrest⟩ := List.forall_mem_cons.mp hfound
    have hx' : x.2 < us.length := h.length_eq ▸ hx
    have hR : R (ts.getD x.2 .fresh) (us.getD x.2 .fresh) := by
      rw [getD_of_getElem? (List.getElem?_eq_getElem hx),getD_of_getElem? (List.getElem?_eq_getElem hx')]
      exact h.get hx hx'
    exact .cons ⟨rfl,hR⟩ (ih hrest)

theorem shown_tagsOf (s : TagSettings) {names names' : List (DeclarationKind × Token)}
    (h : List.Forall₂ (fun x y => x.1 = y.1 ∧ x.2.Alike y.2) names names') :
    (s.tagsOf names).map Tag.shown = (s.tagsOf names').map Tag.shown := by
  induction h with
  | nil => rfl
  | @cons x y names names' hxy _ ih =>
    have htag : (Tag.ofToken x.1 x.2).shown = (Tag.ofToken y.1 y.2).shown :=
      Prod.ext hxy.2.name_eq hxy.1
    simp only [TagSettings.tagsOf,List.flatMap_cons,List.map_append] at ih ⊢
    rw [s.shown_withQualified htag,ih]

end Indices

variable {τ υ : Type}

/-- What the pass has reported are the names, after the tags that were given. -/
structure Pass.Reported (settings : TagSettings) (given : Array Tag) (names : List (DeclarationKind × Token))
    (p : Pass τ) : Prop where
  same : p.settings = settings
  tags : p.tags = given ++ settings.tagsOf names
  count : p.count = (settings.tagsOf names).length

namespace Pass.Reported

variable {settings : TagSettings} {given : Array Tag} {names : List (DeclarationKind × Token)} {p : Pass τ}

theorem start (settings : TagSettings) (given : Array Tag) (input : τ) :
    (Pass.start settings given input).Reported settings given [] := by
  refine ⟨rfl,?_,rfl⟩
  simp [Pass.start,TagSettings.tagsOf]

theorem withInput (h : p.Reported settings given names) (s : τ) : (p.withInput s).Reported settings given names :=
  ⟨h.same,h.tags,h.count⟩

theorem report (h : p.Reported settings given names) (kind : DeclarationKind) (name : Token) :
    (p.report kind name).Reported settings given (names ++ settings.wanted kind name) := by
  have hfound : p.settings.tagsFor kind name = settings.tagsOf (settings.wanted kind name) := by
    rw [h.same,TagSettings.tagsFor_eq_tagsOf]
  refine ⟨h.same,?_,?_⟩
  · rw [TagSettings.tagsOf_append]
    simp only [Pass.report,hfound,h.tags]
    apply Array.ext'
    simp
  · rw [TagSettings.tagsOf_append,List.length_append]
    simp only [Pass.report,hfound,h.count]

end Pass.Reported

theorem Pass.reportAll_all {p : Pass τ} (hp : p.settings.kinds = .all) (found : List (DeclarationKind × Token)) :
    (p.reportAll found).tags = p.tags ++ p.settings.tagsOf found ∧
      (p.reportAll found).count = p.count + (p.settings.tagsOf found).length := by
  induction found generalizing p with
  | nil => simp [TagSettings.tagsOf]
  | cons d found ih =>
    obtain ⟨htags,hcount⟩ := ih (p := p.report d.1 d.2) hp
    have hwanted : p.settings.wanted d.1 d.2 = [d] := by rw [TagSettings.wanted,hp,Selection.contains_all]; rfl
    have hsplit : p.settings.tagsOf (d :: found) = p.settings.tagsFor d.1 d.2 ++ p.settings.tagsOf found := by
      rw [← List.singleton_append,TagSettings.tagsOf_append,TagSettings.tagsFor_eq_tagsOf,hwanted]
    rw [reportAll_cons,htags,hcount,hsplit]
    constructor
    · apply Array.ext'
      simp [report]
    · simp [report,Nat.add_assoc]

theorem tagTokens_wellFormed_all {settings : TagSettings} (hkinds : settings.kinds = .all) {w : List Token}
    {found : List (DeclarationKind × Token)} (hw : WellFormed w found) (hs : Scanned w) (given : Array Tag) :
    tagTokens settings given w = (given ++ settings.tagsOf found,(settings.tagsOf found).length) := by
  obtain ⟨htags,hcount⟩ := Pass.reportAll_all (p := Pass.start settings given w) hkinds found
  rw [tagTokens_reportAll hw hs]
  exact Prod.ext htags (hcount.trans (Nat.zero_add _))

section Parallel

variable (ts us : List Token)

def AtOneIndex (t u : Token) : Prop := t.SameRole u ∧ ∃ i : Nat, ts[i]? = some t ∧ us[i]? = some u

variable {ts us}

/-- Lists of tokens in the same roles go alike, index for index. -/
theorem simulation_parallel (h : List.Forall₂ Token.SameRole ts us) :
    Simulation (AtOneIndex ts us) (fun s s' => ∃ i, s = ts.drop i ∧ s' = us.drop i) True where
  kind ht := ht.1.1
  keyword ht := ht.1.2
  advance := by
    rintro s s' ⟨i,hs,hs'⟩
    have hdrop := List.forall₂_drop i h
    rw [← hs,← hs'] at hdrop
    cases hdrop with
    | nil => exact fun _ => trivial
    | @cons t u rest rest' hrole _ =>
      have ht : ts[i]? = some t := by rw [← List.head?_drop,← hs]; rfl
      have hu : us[i]? = some u := by rw [← List.head?_drop,← hs']; rfl
      have hrest : rest = ts.drop (i + 1) := by rw [← List.tail_drop,← hs]; rfl
      have hrest' : rest' = us.drop (i + 1) := by rw [← List.tail_drop,← hs']; rfl
      exact ⟨⟨hrole,i,ht,hu⟩,i + 1,hrest,hrest'⟩

def Pass.ReportedAt (settings : TagSettings) (given given' : Array Tag) (ts us : List Token) (p : Pass τ)
    (q : Pass υ) : Prop :=
  ∃ found, (∀ x ∈ found, x.2 < ts.length) ∧ p.Reported settings given (namesAt ts found) ∧
    q.Reported settings given' (namesAt us found)

theorem kept_reportedAt (settings : TagSettings) (given given' : Array Tag) (ts us : List Token) :
    Kept (AtOneIndex ts us) (Pass.ReportedAt settings given given' ts us : Pass τ → Pass υ → Prop) where
  withInput s s' h := by
    obtain ⟨found,hfound,hp,hq⟩ := h
    exact ⟨found,hfound,hp.withInput s,hq.withInput s'⟩
  report := by
    rintro p q t u kind ⟨-,i,ht,hu⟩ ⟨found,hfound,hp,hq⟩
    have hts : namesAt ts (settings.wanted kind i) = settings.wanted kind t := by
      rw [namesAt_wanted,getD_of_getElem? ht]
    have hus : namesAt us (settings.wanted kind i) = settings.wanted kind u := by
      rw [namesAt_wanted,getD_of_getElem? hu]
    refine ⟨found ++ settings.wanted kind i,?_,?_,?_⟩
    · intro x hx
      rcases List.mem_append.mp hx with hx | hx
      · exact hfound x hx
      · obtain ⟨rfl,-⟩ := settings.mem_wanted hx
        exact (List.getElem?_eq_some_iff.mp ht).1
    · rw [namesAt_append,hts]
      exact hp.report kind t
    · rw [namesAt_append,hus]
      exact hq.report kind u

theorem tagTokens_parallel (h : List.Forall₂ Token.SameRole ts us) (settings : TagSettings) (given given' : Array Tag) :
    ∃ found, (∀ x ∈ found, x.2 < ts.length) ∧
      tagTokens settings given ts =
        (given ++ settings.tagsOf (namesAt ts found),(settings.tagsOf (namesAt ts found)).length) ∧
      tagTokens settings given' us =
        (given' ++ settings.tagsOf (namesAt us found),(settings.tagsOf (namesAt us found)).length) := by
  let p := Pass.start settings given ts
  let q := Pass.start settings given' us
  have hstart : p.ReportedAt settings given given' ts us q := ⟨[],by simp,.start ..,.start ..⟩
  obtain ⟨found,hfound,hp,hq⟩ :=
    (simulation_parallel h).declarations (kept_reportedAt settings given given' ts us) (p := p) (q := q)
      ⟨0,rfl,rfl⟩ hstart
  exact ⟨found,hfound,Prod.ext hp.tags hp.count,Prod.ext hq.tags hq.count⟩

theorem shown_tagTokens (h : List.Forall₂ Token.Alike ts us) (settings : TagSettings) (given : Array Tag) :
    (tagTokens settings given ts).1.map Tag.shown = (tagTokens settings given us).1.map Tag.shown ∧
      (tagTokens settings given ts).2 = (tagTokens settings given us).2 := by
  have hrole := h.imp fun _ _ ht => ht.sameRole
  obtain ⟨found,hfound,hs,hu⟩ := tagTokens_parallel hrole settings given given
  have hshown := shown_tagsOf settings (forall₂_namesAt h hfound)
  have hlen := congrArg List.length hshown
  rw [List.length_map,List.length_map] at hlen
  rw [hs,hu]
  refine ⟨?_,hlen⟩
  apply Array.ext'
  simp [hshown]

end Parallel

/-- A pass sees the tokens of its source and nothing else: over any source it is the pass over the list of tokens
that the scanner reads from it. Where the tokens of two sources agree one by one in kind, keyword and text, the
passes report the tokens at the same indices, each where it stands in its own source. So the tags agree in number,
order, name and kind. -/
theorem tagSource_of_alike {σ υ : Type} [ByteSource σ] [ByteSource υ] {s : σ} {u : υ} {lexicon lexicon' : Lexicon}
    (h : List.Forall₂ Token.Alike (tokens (Scanner.ofSource s lexicon)) (tokens (Scanner.ofSource u lexicon')))
    (settings : TagSettings) (given given' : Array Tag) :
    let ts := tokens (Scanner.ofSource s lexicon)
    let us := tokens (Scanner.ofSource u lexicon')
    (tagSource settings lexicon given s = tagTokens settings given ts ∧
      tagSource settings lexicon' given' u = tagTokens settings given' us) ∧
    ∃ found, (∀ x ∈ found, x.2 < ts.length) ∧
      let tags := settings.tagsOf (namesAt ts found)
      let tags' := settings.tagsOf (namesAt us found)
      tagSource settings lexicon given s = (given ++ tags,tags.length) ∧
      tagSource settings lexicon' given' u = (given' ++ tags',tags'.length) ∧
      tags.map Tag.shown = tags'.map Tag.shown := by
  have hrole := h.imp fun _ _ ht => ht.sameRole
  obtain ⟨found,hfound,hs,hu⟩ := tagTokens_parallel hrole settings given given'
  refine ⟨⟨tagSource_eq_tokens ..,tagSource_eq_tokens ..⟩,found,hfound,?_,?_,?_⟩
  · exact (tagSource_eq_tokens ..).trans hs
  · exact (tagSource_eq_tokens ..).trans hu
  · exact shown_tagsOf settings (forall₂_namesAt h hfound)

def respacedSample : SourceFile := ⟨Utf8.encode "fn/*\n*/a()\x7b\x7d// x\nlet\tb , c int"⟩

def respacedTiles : List Tile :=
  [.word 102 [110],.blockComment [Byte.newline] true,.word 97 [],.punctuation Byte.openParen .openParen,
    .punctuation Byte.closeParen .closeParen,.punctuation Byte.openCurly .openCurly,
    .punctuation Byte.closeCurly .closeCurly,.lineComment [Byte.space,120],.word 108 [101,116],.blank Byte.tab,.word 98 [],
    .blank Byte.space,.punctuation Byte.comma .comma,.blank Byte.space,.word 99 [],.blank Byte.space,.word 105 [110,116],
    .blank Byte.newline]

theorem tiled_respacedTiles : Tile.Tiled respacedTiles ∧ Tile.spell respacedTiles = respacedSample.content := by
  decide +kernel

def sampleLexicon : Lexicon := (Lexicon.empty.add "fn" .kwFn).add "let" .kwLet

theorem tagSource_of_alike_sample :
    List.Forall₂ Token.Alike (tokens (Scanner.ofSource sampleFile.reader .standard))
      (tokens (Scanner.ofSource respacedSample.reader sampleLexicon)) ∧
    (tagSource ⟨.all,true,some "m"⟩ .standard #[] sampleFile.reader).1.map Tag.shown =
      (tagSource ⟨.all,true,some "m"⟩ sampleLexicon #[] respacedSample.reader).1.map Tag.shown := by
  have halike : List.Forall₂ Token.Alike (tokens (Scanner.ofSource sampleFile.reader .standard))
      (tokens (Scanner.ofSource respacedSample.reader sampleLexicon)) := by
    rw [respacedSample.tokens_reader,SourceFile.tokens_tiles tiled_respacedTiles.1 tiled_respacedTiles.2]
    change List.Forall₂ _ (sampleFile.tokens .standard) _
    rw [tokens_sampleFile]
    decide
  obtain ⟨-,found,-,hs,hu,hshown⟩ := tagSource_of_alike halike ⟨.all,true,some "m"⟩ #[] #[]
  refine ⟨halike,?_⟩
  rw [hs,hu]
  simpa using hshown

end SourceTags
