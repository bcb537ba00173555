import SourceTags.Proofs.WellFormed

/-! # Functions in a row

Functions with bodies, and nothing but blanks between one and the next. The token after a body is read
together with the body, and the pass does not look at it again. That is no loss where it is a terminator,
but without a newline it is the keyword of the next function, which then goes unnoticed. So all functions
are reported exactly if a newline stands between every two of them.
-/
namespace SourceTags
open TokenStream

theorem TagSettings.pos_of_mem_tagsFor {settings : TagSettings} {kind : DeclarationKind} {name : Token} {tag : Tag}
    (h : tag ∈ settings.tagsFor kind name) : tag.pos = name.pos := by
  unfold tagsFor at h
  split at h
  · split at h
    · rcases List.mem_cons.mp h with rfl | h
      · rfl
      · rw [List.mem_singleton.mp h]
        rfl
    · rw [List.mem_singleton.mp h]
      rfl
  · contradiction

/-- The tags that the pass has added to the ones given stand at tokens of the list. -/
def Pass.AddsAt (tags : Array Tag) (ts : List Token) (p : Pass (List Token)) : Prop :=
  ∃ added : List Tag, p.tags = tags ++ added ∧ ∀ tag ∈ added, ∃ t ∈ ts, tag.pos = t.pos

theorem simulation_self (ts : List Token) :
    Simulation (fun t t' => t = t' ∧ t ∈ ts) (fun (s s' : List Token) => s = s' ∧ s ⊆ ts) True where
  kind h := congrArg _ h.1
  keyword h := congrArg _ h.1
  advance := by
    rintro s _ ⟨rfl,hs⟩
    cases s with
    | nil => exact fun _ => trivial
    | cons t s => exact ⟨⟨rfl,hs (List.mem_cons_self ..)⟩,rfl,fun _ hu => hs (List.mem_cons_of_mem t hu)⟩

theorem kept_addsAt (tags : Array Tag) (ts : List Token) :
    Kept (fun t t' => t = t' ∧ t ∈ ts) (fun (p _ : Pass (List Token)) => p.AddsAt tags ts) where
  withInput _ _ h := h
  report := by
    rintro p _ t _ kind ⟨rfl,ht⟩ ⟨added,hp,hadded⟩
    refine ⟨added ++ p.settings.tagsFor kind t,?_,?_⟩
    · rw [Pass.report,hp]
      apply Array.ext'
      simp
    · intro tag htag
      rcases List.mem_append.mp htag with htag | htag
      · exact hadded tag htag
      · exact ⟨t,ht,TagSettings.pos_of_mem_tagsFor htag⟩

theorem Pass.addsAt_declarations (p : Pass (List Token)) : p.declarations.2.AddsAt p.tags p.input := by
  have hp : p.AddsAt p.tags p.input := ⟨[],by simp,by simp⟩
  exact (simulation_self p.input).declarations (kept_addsAt p.tags p.input) (q := p) ⟨rfl,fun _ h => h⟩ hp

/-- A function with a body, from its keyword to the bracket that closes the body. -/
inductive SpellsFunction (lexicon : Lexicon) (p : Position) : List Tile → Token → Prop
  | intro {first more mid kw name w body} :
      Tile.tokens lexicon false p (.word first more :: (mid ++ [.punctuation Byte.closeCurly .closeCurly])) =
        kw :: name :: w →
      kw.keyword = some .kwFn → name.kind = .identifier → SignatureTokens body w → Group .openCurly body →
      SpellsFunction lexicon p (.word first more :: (mid ++ [.punctuation Byte.closeCurly .closeCurly])) name

def blanks (gap : List UInt8) : List Tile := gap.map Tile.blank

/-- Functions with their names, and the blanks between every two of them. Blanks may follow the last one. -/
inductive FunctionRow (lexicon : Lexicon) : Position → List Tile → List Token → List (List UInt8) → Prop
  | nil {p} : FunctionRow lexicon p [] [] []
  | one {p d name gap} : SpellsFunction lexicon p d name → FunctionRow lexicon p (d ++ blanks gap) [name] []
  | cons {p d name gap row next names gaps} : SpellsFunction lexicon p d name → gap ≠ [] →
      FunctionRow lexicon ((p.pastAll (Tile.spell d)).pastAll gap) row (next :: names) gaps →
      FunctionRow lexicon p (d ++ (blanks gap ++ row)) (name :: next :: names) (gap :: gaps)

/-- The file is a row of functions, after blanks that may come first. -/
def SourceFile.IsFunctionRow (lexicon : Lexicon) (f : SourceFile) (names : List Token) (gaps : List (List UInt8)) : Prop :=
  ∃ lead row, Tile.Tiled (blanks lead ++ row) ∧ Tile.spell (blanks lead ++ row) = f.content ∧
    FunctionRow lexicon (Position.pastAll ⟨1,f.start⟩ lead) row names gaps

section Row

variable {lexicon : Lexicon} {p : Position} {ends : Bool} {gap : List UInt8} {gaps : List (List UInt8)}
variable {d row : List Tile} {name : Token} {names : List Token}

theorem spell_blanks (gap : List UInt8) : Tile.spell (blanks gap) = gap := by
  induction gap with
  | nil => rfl
  | cons b gap ih => exact congrArg (List.cons b) ih

theorem tokens_blanks (h : ends = false ∨ Byte.newline ∉ gap) :
    Tile.tokens lexicon ends p (blanks gap ++ row) = Tile.tokens lexicon ends (p.pastAll gap) row := by
  induction gap generalizing p with
  | nil => simp [blanks]
  | cons b gap ih =>
    have hb : (ends && (Tile.blank b).breaksLine) = false := by
      rcases h with rfl | h
      · rfl
      · rw [List.mem_cons,not_or] at h
        simp [Tile.breaksLine,Ne.symm h.1]
    have hgap : ends = false ∨ Byte.newline ∉ gap := h.imp_right fun h hg => h (List.mem_cons_of_mem b hg)
    rw [Position.pastAll_cons,← ih hgap,← Position.pastAll_singleton]
    exact Tile.tokens_trivia rfl hb

theorem tokens_blanks_newline (h : Byte.newline ∈ gap) (p : Position) (row : List Tile) :
    ∃ e, e.kind = .terminator ∧
      Tile.tokens lexicon true p (blanks gap ++ row) = e :: Tile.tokens lexicon false (p.pastAll gap) row := by
  induction gap generalizing p with
  | nil => contradiction
  | cons b gap ih =>
    rw [Position.pastAll_cons,← Position.pastAll_singleton]
    by_cases hb : b = Byte.newline
    · have hbreak : (Tile.blank b).breaksLine = true := beq_iff_eq.mpr hb
      refine ⟨.bare .terminator (p.pastAll []),rfl,?_⟩
      rw [← tokens_blanks (.inl rfl)]
      exact Tile.tokens_break rfl hbreak
    · obtain ⟨e,he,ht⟩ := ih ((List.mem_cons.mp h).resolve_left (Ne.symm hb)) (p.pastAll [b])
      refine ⟨e,he,?_⟩
      rw [← ht]
      exact Tile.tokens_trivia rfl (by simp [Tile.breaksLine,hb])

theorem SpellsFunction.tokens (h : SpellsFunction lexicon p d name) (ends : Bool) :
    ∃ kw w body, kw.keyword = some .kwFn ∧ name.kind = .identifier ∧ SignatureTokens body w ∧ Group .openCurly body ∧
      ∀ more, Tile.tokens lexicon ends p (d ++ more) =
        kw :: name :: (w ++ Tile.tokens lexicon true (p.pastAll (Tile.spell d)) more) := by
  cases h with
  | @intro first tail mid kw _ w body ht hk hn hs hb =>
    refine ⟨kw,w,body,hk,hn,hs,hb,?_⟩
    intro more
    have hends : ∀ r, Tile.tokens lexicon ends p (.word first tail :: r) =
        Tile.tokens lexicon false p (.word first tail :: r) := fun _ => rfl
    have hlast : Tile.endsAfter lexicon false p
        (.word first tail :: (mid ++ [.punctuation Byte.closeCurly .closeCurly])) = true := by
      have htoken : ∀ q, (Tile.punctuation Byte.closeCurly .closeCurly).token? lexicon q =
          some (.bare .closeCurly q) := fun _ => rfl
      rw [← List.cons_append,Tile.endsAfter_token (htoken _)]
      rfl
    rw [List.cons_append,hends,← List.cons_append,Tile.tokens_append,hlast,ht]
    rfl

theorem SpellsFunction.newline_mem (h : SpellsFunction lexicon p d name)
    (hl : EndsLine (Tile.spell (d ++ blanks gap))) : Byte.newline ∈ gap := by
  rw [Tile.spell_append,spell_blanks] at hl
  cases gap with
  | nil =>
    cases h with
    | @intro first tail mid =>
      have hb := hl Byte.closeCurly (by
        rw [List.append_nil,← List.cons_append,Tile.spell_append]
        exact List.getLast?_concat)
      exact absurd hb (by decide)
  | cons b gap => exact hl.of_append.newline_mem

theorem FunctionRow.wellFormed (h : FunctionRow lexicon p row names gaps) (hl : EndsLine (Tile.spell row))
    (hg : ∀ gap ∈ gaps, Byte.newline ∈ gap) (ends : Bool) :
    WellFormed (Tile.tokens lexicon ends p row) (names.map (Prod.mk .function)) := by
  induction h generalizing ends with
  | nil => exact .nil
  | one hd =>
    obtain ⟨kw,w,body,hk,hn,hs,hb,ht⟩ := hd.tokens ends
    obtain ⟨e,he,hblank⟩ := tokens_blanks_newline (hd.newline_mem hl) _ []
    rw [List.append_nil] at hblank
    rw [ht,hblank]
    exact .declaration (.function hk (.inr hb) (.plain hn hs)) he .nil
  | @cons p d name gap row next names gaps hd _ _ ih =>
    obtain ⟨kw,w,body,hk,hn,hs,hb,ht⟩ := hd.tokens ends
    obtain ⟨e,he,hblank⟩ := tokens_blanks_newline (hg gap (List.mem_cons_self ..)) _ row
    rw [ht,hblank]
    have hrow : EndsLine (Tile.spell row) := by
      rw [Tile.spell_append,Tile.spell_append] at hl
      exact hl.of_append.of_append
    have hrest := ih hrow (fun g hg' => hg g (List.mem_cons_of_mem gap hg')) false
    exact .declaration (.function hk (.inr hb) (.plain hn hs)) he hrest

theorem FunctionRow.tokens_cons (h : FunctionRow lexicon p row (name :: names) gaps) (ends : Bool) :
    ∃ kw w, name.kind = .identifier ∧ Tile.tokens lexicon ends p row = kw :: name :: w := by
  cases h with
  | one hd =>
    obtain ⟨kw,w,body,-,hn,-,-,ht⟩ := hd.tokens ends
    exact ⟨kw,_,hn,ht _⟩
  | cons hd _ _ =>
    obtain ⟨kw,w,body,-,hn,-,-,ht⟩ := hd.tokens ends
    exact ⟨kw,_,hn,ht _⟩

/-- Where no newline follows a body, the name of the next function is passed like any other word. -/
theorem declarations_lost {kw kw' next : Token} {w w' body : List Token} (hk : kw.keyword = some .kwFn)
    (hn : name.kind = .identifier) (hs : SignatureTokens body w) (hb : Group .openCurly body)
    (hnext : next.keyword = none) (q : Pass (List Token)) :
    (q.withInput (kw :: name :: (w ++ kw' :: next :: w'))).declarations =
      ((q.report .function name).withInput w').declarations := by
  have hd : (q.withInput (name :: w ++ kw' :: next :: w')).declaration kw =
      .token kw' ((q.report .function name).withInput (next :: w')) := by
    unfold Pass.declaration
    rw [hk]
    exact Pass.function_tokens (.plain hn hs) (.inl hb) kw (next :: w') q
  rw [List.cons_append] at hd
  rw [Pass.declarations_eq,Pass.input_withInput,advance_cons]
  dsimp only
  rw [Pass.withInput_withInput,hd]
  exact Pass.declarations_filler (Token.not_introduces hnext) w' _

theorem tags_ne_of_sorted {kw' next : Token} {w' : List Token} {names : List Token} (q : Pass (List Token))
    (hsorted : (kw' :: next :: w').Pairwise fun u v => u.pos.offset < v.pos.offset) :
    (q.withInput w').declarations.2.tags ≠ q.tags ++ (next :: names).map (Tag.ofToken .function) := by
  intro heq
  obtain ⟨added,hadds,hat⟩ := Pass.addsAt_declarations (q.withInput w')
  have hadded : added = (next :: names).map (Tag.ofToken .function) := by
    have h := congrArg Array.toList (hadds.symm.trans heq)
    simpa [Pass.withInput] using h
  obtain ⟨t,ht,hpos⟩ := hat (Tag.ofToken .function next) (hadded ▸ List.mem_cons_self ..)
  have hlt : next.pos.offset < t.pos.offset :=
    (List.pairwise_cons.mp (List.pairwise_cons.mp hsorted).2).1 t ht
  have hpos : next.pos = t.pos := hpos
  rw [hpos] at hlt
  exact Nat.lt_irrefl _ hlt

/-- A row with a gap that has no newline is not reported in full: the name after the first such gap is
passed before a tag can stand at it. -/
theorem FunctionRow.tags_ne (h : FunctionRow lexicon p row names gaps) (hg : ∃ gap ∈ gaps, Byte.newline ∉ gap)
    (ends : Bool) {q : Pass (List Token)} (hq : q.settings = .standard) :
    (q.withInput (Tile.tokens lexicon ends p row)).declarations.2.tags ≠
      q.tags ++ names.map (Tag.ofToken .function) := by
  induction h generalizing ends q with
  | nil | one =>
    obtain ⟨gap,hgap,-⟩ := hg
    contradiction
  | @cons p d name gap row next names gaps hd _ hrow ih =>
    obtain ⟨kw,w,body,hk,hn,hs,hb,ht⟩ := hd.tokens ends
    have hscanned : Scanned (Tile.tokens lexicon ends p (d ++ (blanks gap ++ row))) := Tile.scanned_tokens
    have htags : q.tags ++ (name :: next :: names).map (Tag.ofToken .function) =
        (q.report .function name).tags ++ (next :: names).map (Tag.ofToken .function) := by
      rw [Pass.report,hq,TagSettings.tagsFor_standard]
      apply Array.ext'
      simp
    rw [htags,ht]
    rw [ht] at hscanned
    by_cases hnl : Byte.newline ∈ gap
    · obtain ⟨e,he,hblank⟩ := tokens_blanks_newline hnl _ row
      rw [hblank] at hscanned ⊢
      have hke : e.keyword = none := hscanned e (by simp) (by simp [he])
      have hgaps : ∃ gap ∈ gaps, Byte.newline ∉ gap := by
        obtain ⟨g,hmem,hno⟩ := hg
        rcases List.mem_cons.mp hmem with rfl | hmem
        · exact absurd hnl hno
        · exact ⟨g,hmem,hno⟩
      have hpass := Pass.declarations_declaration (.function hk (.inr hb) (.plain hn hs)) he hke
        (Tile.tokens lexicon false ((p.pastAll (Tile.spell d)).pastAll gap) row) q
      rw [← List.cons_append,← List.cons_append,hpass]
      exact ih hgaps false hq
    · obtain ⟨kw',w',hn',hnext⟩ := hrow.tokens_cons true
      have hsorted : (Tile.tokens lexicon true ((p.pastAll (Tile.spell d)).pastAll gap) row).Pairwise
          fun u v => u.pos.offset < v.pos.offset := Tile.tokens_sorted
      rw [hnext] at hsorted
      rw [tokens_blanks (.inr hnl),hnext] at hscanned ⊢
      have hknext : next.keyword = none := hscanned next (by simp) (by simp [hn'])
      rw [declarations_lost hk hn hs hb hknext]
      exact tags_ne_of_sorted _ hsorted

end Row

section File

variable {lexicon : Lexicon} {f : SourceFile} {names : List Token} {gaps : List (List UInt8)}

theorem SourceFile.IsFunctionRow.tokens (h : f.IsFunctionRow lexicon names gaps) :
    ∃ p row, f.tokens lexicon = Tile.tokens lexicon false p row ∧ EndsLine (Tile.spell row) ∧
      FunctionRow lexicon p row names gaps := by
  obtain ⟨lead,row,htiled,hspell,hrow⟩ := h
  refine ⟨_,row,?_,?_,hrow⟩
  · rw [SourceFile.tokens_tiles htiled hspell,tokens_blanks (.inl rfl)]
  · have hcontent := f.endsLine_content
    rw [← hspell,Tile.spell_append] at hcontent
    exact hcontent.of_append

theorem SourceFile.IsFunctionRow.tags_ne (h : f.IsFunctionRow lexicon names gaps)
    (hg : ∃ gap ∈ gaps, Byte.newline ∉ gap) (tags : Array Tag) :
    (tagSource .standard lexicon tags f.reader).1 ≠ tags ++ names.map (Tag.ofToken .function) := by
  obtain ⟨p,row,htokens,-,hrow⟩ := h.tokens
  rw [tagSource_eq_tagTokens,htokens]
  exact hrow.tags_ne hg false (q := Pass.start .standard tags []) rfl

/-- All functions of a row are reported, each once, exactly if every gap has a newline. -/
theorem tagSource_functionRow (h : f.IsFunctionRow lexicon names gaps) (tags : Array Tag) :
    tagSource .standard lexicon tags f.reader = (tags ++ names.map (Tag.ofToken .function),names.length) ↔
      ∀ gap ∈ gaps, Byte.newline ∈ gap := by
  constructor
  · intro heq gap hgap
    refine Decidable.byContradiction fun hnl => ?_
    exact h.tags_ne ⟨gap,hgap,hnl⟩ tags (congrArg Prod.fst heq)
  · intro hg
    obtain ⟨p,row,htokens,hl,hrow⟩ := h.tokens
    have hw := hrow.wellFormed hl hg false
    rw [← htokens] at hw
    rw [tagSource_eq_tagTokens,tagTokens_wellFormed hw (f.scanned_tokens lexicon),List.map_map,List.length_map]
    rfl

end File

def plainFunction (letter : UInt8) : List Tile :=
  .word 102 [110] :: ([.blank Byte.space,.word letter [],.punctuation Byte.openParen .openParen,
    .punctuation Byte.closeParen .closeParen,.blank Byte.space,.punctuation Byte.openCurly .openCurly] ++
      [.punctuation Byte.closeCurly .closeCurly])

def plainName (letter : UInt8) (p : Position) : Token :=
  ⟨.identifier,none,[letter],(p.pastAll [102,110]).pastAll [Byte.space]⟩

theorem spellsFunction_plainFunction {letter : UInt8} (h : Lexicon.standard.find? [letter] = none) (p : Position) :
    SpellsFunction .standard p (plainFunction letter) (plainName letter p) := by
  have hname : Token.ofWord .standard [letter] ((p.pastAll [102,110]).pastAll [Byte.space]) = plainName letter p := by
    rw [Token.ofWord,h]
    rfl
  have ht : ∃ q r u v, Tile.tokens .standard false p (plainFunction letter) = .ofWord .standard [102,110] p ::
      plainName letter p :: ([.bare .openParen q,.bare .closeParen r] ++ [.bare .openCurly u,.bare .closeCurly v]) := by
    rw [← hname]
    exact ⟨_,_,_,_,rfl⟩
  obtain ⟨q,r,u,v,ht⟩ := ht
  have hparams : Group .openParen [.bare .openParen q,.bare .closeParen r] := .intro (w := []) rfl rfl .nil rfl
  have hbody : Group .openCurly [.bare .openCurly u,.bare .closeCurly v] := .intro (w := []) rfl rfl .nil rfl
  exact .intro ht rfl rfl (.untyped hparams) hbody

def twoFunctions (gap : List UInt8) : List Tile :=
  plainFunction 97 ++ (blanks gap ++ (plainFunction 98 ++ blanks [Byte.newline]))

def secondStart (gap : List UInt8) : Position :=
  (Position.pastAll ⟨1,0⟩ (Tile.spell (plainFunction 97))).pastAll gap

theorem functionRow_twoFunctions {gap : List UInt8} (h : gap ≠ []) :
    FunctionRow .standard ⟨1,0⟩ (twoFunctions gap) [plainName 97 ⟨1,0⟩,plainName 98 (secondStart gap)] [gap] :=
  .cons (spellsFunction_plainFunction (by decide) _) h (.one (spellsFunction_plainFunction (by decide) _))

theorem tagSource_functionRow_newline :
    SourceFile.IsFunctionRow .standard ⟨Utf8.encode "fn a() \x7b\x7d\nfn b() \x7b\x7d\n"⟩
      [plainName 97 ⟨1,0⟩,plainName 98 (secondStart [Byte.newline])] [[Byte.newline]] ∧
    tagSource .standard .standard #[] (SourceFile.reader ⟨Utf8.encode "fn a() \x7b\x7d\nfn b() \x7b\x7d\n"⟩) =
      (#[⟨"a",.function,⟨1,3⟩⟩,⟨"b",.function,⟨2,13⟩⟩],2) := by
  have h : SourceFile.IsFunctionRow .standard ⟨Utf8.encode "fn a() \x7b\x7d\nfn b() \x7b\x7d\n"⟩
      [plainName 97 ⟨1,0⟩,plainName 98 (secondStart [Byte.newline])] [[Byte.newline]] :=
    ⟨[],twoFunctions [Byte.newline],by decide +kernel,by decide,functionRow_twoFunctions (by decide)⟩
  exact ⟨h,(tagSource_functionRow h #[]).mpr (by decide)⟩

/-- On one line the second of two functions is lost. -/
theorem tagSource_functionRow_space :
    SourceFile.IsFunctionRow .standard ⟨Utf8.encode "fn a() \x7b\x7d fn b() \x7b\x7d\n"⟩
      [plainName 97 ⟨1,0⟩,plainName 98 (secondStart [Byte.space])] [[Byte.space]] ∧
    tagSource .standard .standard #[] (SourceFile.reader ⟨Utf8.encode "fn a() \x7b\x7d fn b() \x7b\x7d\n"⟩) ≠
      (#[⟨"a",.function,⟨1,3⟩⟩,⟨"b",.function,⟨1,13⟩⟩],2) := by
  have h : SourceFile.IsFunctionRow .standard ⟨Utf8.encode "fn a() \x7b\x7d fn b() \x7b\x7d\n"⟩
      [plainName 97 ⟨1,0⟩,plainName 98 (secondStart [Byte.space])] [[Byte.space]] :=
    ⟨[],twoFunctions [Byte.space],by decide +kernel,by decide,functionRow_twoFunctions (by decide)⟩
  refine ⟨h,?_⟩
  intro heq
  exact h.tags_ne ⟨[Byte.space],by decide,by decide⟩ #[] (congrArg Prod.fst heq)

end SourceTags
