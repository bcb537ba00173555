import SourceTags.Proofs.ReadingOn
import SourceTags.Proofs.TileRow
import SourceTags.Proofs.WordPositions

/-! # Depths in words

The groups that are open while one is skipped may be counted with a word too. A pass skips only the group that the token
read last may open, so every group that is open then has a bracket of its own among the tokens of the file, and
no byte of a newline spells a bracket. A file with fewer bytes than there are words has too few brackets for the word to
wrap around; and it is never lowered from zero, for the group that is skipped stays open until its end.
-/
namespace SourceTags
open TokenStream

section Streams

variable {τ : Type} [TokenStream τ]

/-- Reads on as `closeGroup` does, and counts the groups that are open, the outermost one with them. There is no reading
where the count would wrap around. -/
def closeGroupWord (opening closing : TokenKind) (depth : UInt32) (s : τ) : Option (Reading τ) :=
  match _h : advance s with
  | .endOfInput left rest => some (.endOfInput left rest)
  | .token t rest =>
    if t.kind = opening then
      if depth.toNat + 1 = UInt32.size then none else closeGroupWord opening closing (depth + 1) rest
    else if t.kind = closing then
      if depth = 0 then none
      else if depth - 1 = 0 then some (advance rest)
      else closeGroupWord opening closing (depth - 1) rest
    else closeGroupWord opening closing depth rest
termination_by remaining s
decreasing_by all_goals exact remaining_advance _h

/-- Skips the group that the token opens, with a word for the count. -/
def skipGroupWord (t : Token) (s : τ) : Option (Reading τ) :=
  match t.kind.closer with
  | none => some (.token t s)
  | some closing => closeGroupWord t.kind closing 1 s

variable {opening closing : TokenKind} {depth : UInt32} {inner : Nat} {s rest : τ} {t left : Token}

theorem closeGroupWord_endOfInput (h : advance s = .endOfInput left rest) :
    closeGroupWord opening closing depth s = some (.endOfInput left rest) := by
  rw [closeGroupWord]
  split <;> simp_all

theorem closeGroupWord_token (h : advance s = .token t rest) :
    closeGroupWord opening closing depth s =
      if t.kind = opening then
        if depth.toNat + 1 = UInt32.size then none else closeGroupWord opening closing (depth + 1) rest
      else if t.kind = closing then
        if depth = 0 then none
        else if depth - 1 = 0 then some (advance rest)
        else closeGroupWord opening closing (depth - 1) rest
      else closeGroupWord opening closing depth rest := by
  rw [closeGroupWord]
  split
  · simp_all
  · next h' =>
    obtain ⟨rfl,rfl⟩ := Reading.token.inj (h.symm.trans h')
    rfl

theorem toNat_sub_one (h : depth.toNat = inner + 1) : (depth - 1).toNat = inner := by
  have hle : (1 : UInt32) ≤ depth := by
    rw [UInt32.le_iff_toNat_le,h]
    exact Nat.le_add_left ..
  rw [UInt32.toNat_sub_of_le _ _ hle,h]
  rfl

/-- Where fewer brackets are left than would make the count wrap around, the word is the number of open groups. -/
theorem closeGroupWord_eq (hd : depth.toNat = inner + 1)
    (hb : depth.toNat + (tokens s).countP (·.kind = opening) < UInt32.size) :
    closeGroupWord opening closing depth s = some (closeGroup opening closing inner s) := by
  fun_induction closeGroup opening closing inner s generalizing depth with
  | case1 inner s left rest ha => exact closeGroupWord_endOfInput ha
  | case2 inner s t rest ha ho ih =>
    rw [tokens_token ha,List.countP_cons_of_pos (by simpa using ho)] at hb
    have hadd : (depth + 1).toNat = depth.toNat + 1 := by
      rw [UInt32.toNat_add]
      exact Nat.mod_eq_of_lt (by change depth.toNat + 1 < UInt32.size; omega)
    rw [closeGroupWord_token ha,if_pos ho,if_neg (by omega)]
    exact ih (by omega) (by omega)
  | case3 s t rest ha ho hc =>
    have hsub := toNat_sub_one hd
    have hpos : depth ≠ 0 := by
      rintro rfl
      contradiction
    have hzero : depth - 1 = 0 := UInt32.toNat_inj.mp hsub
    rw [closeGroupWord_token ha,if_neg ho,if_pos hc,if_neg hpos,if_pos hzero]
  | case4 s t rest ha ho hc inner ih =>
    have hsub := toNat_sub_one hd
    rw [tokens_token ha,List.countP_cons_of_neg (by simpa using ho)] at hb
    have hpos : depth ≠ 0 := by
      rintro rfl
      contradiction
    have hone : depth - 1 ≠ 0 := by
      intro hzero
      rw [hzero] at hsub
      contradiction
    rw [closeGroupWord_token ha,if_neg ho,if_pos hc,if_neg hpos,if_neg hone]
    exact ih hsub (by omega)
  | case5 inner s t rest ha ho hc ih =>
    rw [tokens_token ha,List.countP_cons_of_neg (by simpa using ho)] at hb
    rw [closeGroupWord_token ha,if_neg ho,if_neg hc]
    exact ih hd hb

end Streams

section Brackets
open Tile

variable {opening : TokenKind} {lexicon : Lexicon} {ends : Bool} {p : Position} {tiles : List Tile}

theorem count_newline_lt_of_opening {t : Tile} {u : Token} {more : List UInt8} (ht : t.Fits more)
    (hu : t.token? lexicon p = some u) (ho : u.kind.closer ≠ none) : t.bytes.count Byte.newline < t.bytes.length := by
  cases t with
  | blank | lineComment | blockComment | dropped => contradiction
  | word first more =>
    obtain rfl := Option.some.inj hu
    unfold Token.ofWord at ho
    split at ho <;> exact absurd rfl ho
  | literal | slash | arrow =>
    obtain rfl := Option.some.inj hu
    exact absurd rfl ho
  | punctuation b kind =>
    have hb : b ≠ Byte.newline := by
      rintro rfl
      contradiction
    exact List.count_lt_length_iff.mpr ⟨b,List.mem_singleton_self b,hb⟩

/-- Every opening bracket among the tokens of the tiles costs a byte that is no newline. -/
theorem countP_tokens_le (ht : Tiled tiles) (ho : opening.closer ≠ none) :
    (Tile.tokens lexicon ends p tiles).countP (·.kind = opening) + (spell tiles).count Byte.newline ≤
      (spell tiles).length := by
  induction tiles generalizing ends p with
  | nil => exact Nat.le_refl _
  | cons t tiles ih =>
    obtain ⟨hfit,htiles⟩ := ht
    have hbytes : t.bytes.count Byte.newline ≤ t.bytes.length := List.count_le_length
    rw [spell_cons,List.count_append,List.length_append,Tile.tokens]
    cases hu : t.token? lexicon p with
    | some u =>
      have hlater := @ih u.kind.mayEndStatement (p.pastAll t.bytes) htiles
      dsimp only
      by_cases hk : u.kind = opening
      · have hlt := count_newline_lt_of_opening hfit hu (hk ▸ ho)
        rw [List.countP_cons_of_pos (by simpa using hk)]
        omega
      · rw [List.countP_cons_of_neg (by simpa using hk)]
        omega
    | none =>
      have hterminator : TokenKind.terminator ≠ opening := by
        rintro rfl
        exact ho rfl
      dsimp only
      split
      · have hlater := @ih false (p.pastAll t.bytes) htiles
        rw [List.countP_cons_of_neg (by simp [Token.bare,hterminator])]
        omega
      · have hlater := @ih ends (p.pastAll t.bytes) htiles
        omega

theorem SourceFile.countP_tokens_le (f : SourceFile) (lexicon : Lexicon) (ho : opening.closer ≠ none) :
    (f.tokens lexicon).countP (·.kind = opening) ≤ f.bytes.length := by
  obtain ⟨tiles,ht,hf⟩ := exists_tiles f.endsLine_content
  have hcount : (Tile.tokens lexicon false ⟨1,f.start⟩ tiles).countP (·.kind = opening) + _ ≤ _ :=
    SourceTags.countP_tokens_le ht ho
  have hlength := f.length_content
  rw [hf] at hcount
  rw [SourceFile.tokens_tiles ht hf]
  cases hl : f.lacksNewline with
  | false =>
    rw [hl,Bool.toNat_false] at hlength
    omega
  | true =>
    have howed : [Byte.newline].count Byte.newline ≤ f.content.count Byte.newline := by
      rw [f.content_eq,hl,List.count_append]
      exact Nat.le_add_left ..
    rw [hl,Bool.toNat_true] at hlength
    simp only [List.count_singleton_self] at howed
    omega

end Brackets

section Entries
open TypeForm

variable {τ : Type} [TokenStream τ] (u : Token) (v : τ)

/-- A type that starts at the token is skipped, and the group that `u` may open is skipped from `v` on meanwhile. -/
inductive TypeEnters : Token → τ → Prop
  | group : ofToken u = group ∨ ofToken u = element → TypeEnters u v
  | body {t s} : ofToken t = body ∨ ofToken t = signature → advance s = .token u v → TypeEnters t s
  | inner {t t' s s'} : skipTypeStart (ofToken t) t s = .token t' s' → (ofToken t).hasInner = true →
      TypeEnters t' s' → TypeEnters t s

/-- The same for the way to a terminator. -/
inductive SeekEnters : Token → τ → Prop
  | here {t s} : t.kind ≠ .terminator → advance s = .token u v → SeekEnters t s
  | later {t t' s s'} : t.kind ≠ .terminator → readGroup s = .token t' s' → SeekEnters t' s' → SeekEnters t s

/-- The same for what comes after a name. -/
inductive NamesEnter (grouped : Bool) : τ → Prop
  | type {s s' t} : advance s = .token t s' → t.kind ≠ .comma → TypeEnters u v t s' → NamesEnter grouped s
  | seek {s s' s'' t t'} : advance s = .token t s' → t.kind ≠ .comma → skipTypeExpr t s' = .token t' s'' →
      SeekEnters u v t' s'' → NamesEnter grouped s
  | later {s s' name} : afterName grouped s = .name name s' → NamesEnter grouped s' → NamesEnter grouped s

/-- The same for what comes after the keyword of a function. -/
inductive FunctionEnters : τ → Prop
  | receiver {s} : advance s = .token u v → u.kind = .openParen → FunctionEnters s
  | parameters {s s' name} : readFunctionName s = .token name s' → name.kind = .identifier → advance s' = .token u v →
      FunctionEnters s
  | result {s s' s'' name t} : readFunctionName s = .token name s' → name.kind = .identifier →
      readGroup s' = .token t s'' → TypeEnters u v t s'' → FunctionEnters s
  | body {s s' name} : readFunctionName s = .token name s' → name.kind = .identifier →
      (readGroup s').andThen skipTypeExpr = .token u v → u.kind = .openCurly → FunctionEnters s

/-- The same for a declaration after the token that introduces it. -/
inductive DeclarationEnters : Token → τ → Prop
  | function {t s} : t.keyword = some .kwFn → FunctionEnters u v s → DeclarationEnters t s
  | binding {t s s' first} : t.keyword = some .kwType ∨ t.keyword = some .kwLet → readBindingName s = .token first s' →
      first.kind ≠ .openParen → NamesEnter u v false s' → DeclarationEnters t s
  | group {t s s' s'' first name} : t.keyword = some .kwType ∨ t.keyword = some .kwLet →
      readBindingName s = .token first s' → first.kind = .openParen → readBindingName s' = .token name s'' →
      NamesEnter u v true s'' → DeclarationEnters t s

/-- The pass skips the group that `u` may open from `v` on. -/
inductive Pass.Enters : Pass τ → Prop
  | declaration {p t s} : advance p.input = .token t s → DeclarationEnters u v t s → Enters p
  | later {p q t t' s} : advance p.input = .token t s → (p.withInput s).declaration t = .token t' q → Enters q → Enters p

end Entries

section Calls

variable {τ : Type} [TokenStream τ]

/-- The token is the one that has been read last on the way to `s'`. -/
def LastRead (s : τ) (t : Token) (s' : τ) : Prop := ∃ ts, Gives s (ts ++ [t]) s'

variable {s s' s'' v : τ} {t t' u : Token}

theorem LastRead.after {ts : List Token} (h : LastRead s' t s'') (hs : Gives s ts s') : LastRead s t s'' := by
  obtain ⟨us,hus⟩ := h
  refine ⟨ts ++ us,?_⟩
  rw [List.append_assoc]
  exact hs.append hus

theorem lastRead_advance (h : advance s = .token t s') : LastRead s t s' := ⟨[],.cons h .nil⟩

theorem LastRead.later {r : Reading τ} (h : LastRead s' t s'') (hr : r.ReadsOn s) (htoken : r = .token t' s') :
    LastRead s t s'' := by
  subst htoken
  obtain ⟨ts,hts⟩ := hr
  exact h.after hts

theorem lastRead_closeGroup {opening closing : TokenKind} {inner : Nat}
    (h : closeGroup opening closing inner s = .token t s') : LastRead s t s' := by
  fun_induction closeGroup opening closing inner s with
  | case1 => contradiction
  | case2 inner s u rest ha _ ih => exact (ih h).after (.cons ha .nil)
  | case3 s u rest ha _ _ => exact (lastRead_advance h).after (.cons ha .nil)
  | case4 s u rest ha _ _ inner ih => exact (ih h).after (.cons ha .nil)
  | case5 inner s u rest ha _ _ ih => exact (ih h).after (.cons ha .nil)

theorem LastRead.skipGroup {s₀ : τ} (h : LastRead s₀ t s) (hskip : skipGroup t s = .token t' s') : LastRead s₀ t' s' := by
  unfold SourceTags.skipGroup at hskip
  split at hskip
  · obtain ⟨rfl,rfl⟩ := Reading.token.inj hskip
    exact h
  · obtain ⟨ts,hts⟩ := h
    exact (lastRead_closeGroup hskip).after hts

theorem lastRead_readGroup (h : readGroup s = .token t s') : LastRead s t s' := by
  obtain ⟨u,s₁,ha,hskip⟩ := Reading.andThen_eq_token.mp h
  exact (lastRead_advance ha).skipGroup hskip

theorem lastRead_skipTypeName (h : skipTypeName s = .token t s') : LastRead s t s' := by
  obtain ⟨u,s₁,ha,h⟩ := Reading.andThen_eq_token.mp h
  split at h
  · obtain ⟨v,s₂,ha',h⟩ := Reading.andThen_eq_token.mp h
    exact (lastRead_advance h).after (.cons ha (.cons ha' .nil))
  · obtain ⟨rfl,rfl⟩ := Reading.token.inj h
    exact lastRead_advance ha

theorem LastRead.skipTypeStart {s₀ : τ} {form : TypeForm} (h : LastRead s₀ t s)
    (hskip : skipTypeStart form t s = .token t' s') : LastRead s₀ t' s' := by
  have hon : ∀ {u : Token} {s₁ : τ}, LastRead s u s₁ → LastRead s₀ u s₁ := by
    obtain ⟨ts,hts⟩ := h
    exact fun hu => hu.after hts
  cases form with
  | missing =>
    obtain ⟨rfl,rfl⟩ := Reading.token.inj hskip
    exact h
  | group | element => exact h.skipGroup hskip
  | name => exact hon (lastRead_skipTypeName hskip)
  | body | signature => exact hon (lastRead_readGroup hskip)
  | sign => exact hon (lastRead_advance hskip)

theorem LastRead.skipTypeExpr {s₀ : τ} (h : LastRead s₀ t s) (hskip : skipTypeExpr t s = .token t' s') :
    LastRead s₀ t' s' := by
  fun_induction SourceTags.skipTypeExpr t s with
  | case1 => contradiction
  | case2 t s u s₁ hstart _ ih => exact ih (h.skipTypeStart hstart) hskip
  | case3 t s u s₁ hstart _ =>
    obtain ⟨rfl,rfl⟩ := Reading.token.inj hskip
    exact h.skipTypeStart hstart

theorem TypeEnters.lastRead {s₀ : τ} (h : TypeEnters u v t s) (hs : LastRead s₀ t s) : LastRead s₀ u v := by
  induction h with
  | group => exact hs
  | body _ ha =>
    obtain ⟨ts,hts⟩ := hs
    exact (lastRead_advance ha).after hts
  | inner hskip _ _ ih => exact ih (hs.skipTypeStart hskip)

theorem SeekEnters.lastRead (h : SeekEnters u v t s) : LastRead s u v := by
  induction h with
  | here _ ha => exact lastRead_advance ha
  | later _ hr _ ih => exact ih.later (readsOn_readGroup _) hr

theorem NamesEnter.lastRead {grouped : Bool} (h : NamesEnter u v grouped s) : LastRead s u v := by
  induction h with
  | type ha _ htype => exact htype.lastRead (lastRead_advance ha)
  | seek ha _ hskip hseek => exact (hseek.lastRead.later (readsOn_skipTypeExpr _ _) hskip).after (.cons ha .nil)
  | @later s s' name hn _ ih =>
    have hafter := readsOn_afterName grouped s
    rw [hn] at hafter
    obtain ⟨ts,hts⟩ := hafter
    exact ih.after hts

theorem FunctionEnters.lastRead (h : FunctionEnters u v s) : LastRead s u v := by
  cases h with
  | receiver ha => exact lastRead_advance ha
  | parameters hn _ ha => exact (lastRead_advance ha).later (readsOn_readFunctionName s) hn
  | result hn _ hgroup htype =>
    exact (htype.lastRead (lastRead_readGroup hgroup)).later (readsOn_readFunctionName s) hn
  | body hn _ hskip =>
    obtain ⟨t,s₁,hgroup,hskip⟩ := Reading.andThen_eq_token.mp hskip
    exact ((lastRead_readGroup hgroup).skipTypeExpr hskip).later (readsOn_readFunctionName s) hn

theorem DeclarationEnters.lastRead (h : DeclarationEnters u v t s) : LastRead s u v := by
  cases h with
  | function _ hf => exact hf.lastRead
  | binding _ hfirst _ hnames => exact hnames.lastRead.later (readsOn_readBindingName s) hfirst
  | group _ hfirst _ hname hnames =>
    exact (hnames.lastRead.later (readsOn_readBindingName _) hname).later (readsOn_readBindingName s) hfirst

/-- A pass skips only groups that the token may open which it has read last. -/
theorem Pass.Enters.lastRead {p : Pass τ} (h : p.Enters u v) : LastRead p.input u v := by
  induction h with
  | declaration ha hd => exact hd.lastRead.after (.cons ha .nil)
  | @later p q t t' s ha hd _ ih =>
    have hread := (p.withInput s).readsOn_declaration t
    rw [hd] at hread
    obtain ⟨ts,hts⟩ := hread
    exact (ih.after hts).after (.cons ha .nil)

end Calls

theorem skipGroupWord_lastRead {f : SourceFile} (fits : f.bytes.length < UInt32.size) {lexicon : Lexicon} {t : Token}
    {z : Scanner Reader} (h : LastRead (Scanner.ofSource f.reader lexicon) t z) :
    skipGroupWord t z = some (skipGroup t z) := by
  obtain ⟨ts,hts⟩ := h
  unfold skipGroupWord skipGroup
  cases hc : t.kind.closer with
  | none => rfl
  | some closing =>
    have hopens : t.kind.closer ≠ none := by
      rw [hc]
      exact Option.some_ne_none closing
    have hcount := f.countP_tokens_le lexicon hopens
    rw [← f.tokens_reader,hts.tokens_eq,List.countP_append,List.countP_append,List.countP_singleton,
      if_pos (decide_eq_true rfl)] at hcount
    have hone : (1 : UInt32).toNat = 0 + 1 := rfl
    refine closeGroupWord_eq hone ?_
    omega

/-- A file with fewer bytes than there are words of 32 bits is read exactly with words for counters. Whatever has been asked
of its reader, it stands at a place of the content, and words show what the content says there; they have wrapped around only
where nothing that is still to come could tell. A pass reports the same, and no count of open groups in it wraps around, up or
down. -/
theorem words_exact (f : SourceFile) (fits : f.bytes.length < UInt32.size) :
    (∀ ds : List Demand, Demand.run f.reader ds = (Demand.run (Place.start f) ds).reader ∧
      (Demand.run (WordReader.ofFile f fits) ds).Shows (Demand.run (Place.start f) ds)) ∧
    ∀ (settings : TagSettings) (lexicon : Lexicon) (tags : Array Tag),
      tagSource settings lexicon tags (WordReader.ofFile f fits) = tagSource settings lexicon tags f.reader ∧
      ∀ t z, (Pass.start settings tags (Scanner.ofSource f.reader lexicon)).Enters t z →
        skipGroupWord t z = some (skipGroup t z) := by
  refine ⟨fun ds => ⟨(Place.run_reader f ds).2,WordReader.shows_run f fits ds⟩,?_⟩
  intro settings lexicon tags
  refine ⟨WordReader.tagSource_ofFile f fits settings lexicon tags,?_⟩
  intro t z h
  exact skipGroupWord_lastRead fits h.lastRead

def newlines (n : Nat) : SourceFile := ⟨List.replicate n Byte.newline⟩

theorem start_newlines (n : Nat) : (newlines n).start = 0 := by cases n <;> rfl

theorem content_newlines (n : Nat) : (newlines n).content = List.replicate n Byte.newline := by
  have hbody : (newlines n).body = List.replicate n Byte.newline := by
    rw [SourceFile.body,start_newlines]
    rfl
  have hlacks : (newlines n).lacksNewline = false := by
    rw [SourceFile.lacksNewline,hbody]
    cases n with
    | zero => rfl
    | succ n => simp [List.getLast?_replicate]
  rw [SourceFile.content,hlacks,hbody]
  rfl

theorem positionAt_newlines {n i : Nat} (h : i ≤ n) : (newlines n).positionAt i = ⟨1 + i,i⟩ := by
  rw [SourceFile.positionAt,start_newlines,content_newlines,List.take_replicate,List.count_replicate_self,
    Nat.min_eq_left h,Nat.zero_add]

theorem given_newlines (n : Nat) : (Demand.run (Place.start (newlines n)) [.skipPast 0]).given = n := by
  have hcontent := content_newlines n
  have hrest : (Place.start (newlines n)).rest = List.replicate n Byte.newline := by
    rw [Place.rest]
    exact hcontent
  have htake : (List.replicate n Byte.newline).takeWhile (· != (0 : UInt8)) = List.replicate n Byte.newline := by
    rw [List.takeWhile_replicate]
    rfl
  change min (0 + ((Place.start (newlines n)).rest.takeWhile (· != 0)).length + 1) (newlines n).content.length = n
  rw [hrest,htake,hcontent,List.length_replicate]
  omega

theorem next?_newlines (n : Nat) : (Demand.run (Place.start (newlines n)) [.skipPast 0]).next? = none := by
  have hfile := (Place.run_reader (newlines n) [.skipPast 0]).1
  refine Place.next_nil rfl ?_
  rw [Place.rest,hfile,content_newlines,given_newlines]
  exact List.drop_of_length_le (Nat.le_of_eq List.length_replicate)

def cutSample : SourceFile := ⟨Utf8.encode "fn ("⟩

theorem tokens_cutSample : tokens (Scanner.ofSource cutSample.reader .standard) =
    [⟨.keyword,some .kwFn,[102,110],⟨1,0⟩⟩,.bare .openParen ⟨1,3⟩] := by
  let tiles : List Tile :=
    [.word 102 [110],.blank Byte.space,.punctuation Byte.openParen .openParen,.blank Byte.newline]
  have htiles : Tile.Tiled tiles ∧ Tile.spell tiles = cutSample.content := by decide +kernel
  rw [cutSample.tokens_reader,SourceFile.tokens_tiles htiles.1 htiles.2]
  decide

theorem enters_cutSample (settings : TagSettings) :
    ∃ z, (Pass.start settings #[] (Scanner.ofSource cutSample.reader .standard)).Enters (.bare .openParen ⟨1,3⟩) z := by
  obtain ⟨z,hz,-⟩ := exists_gives (tokens_cutSample.trans (List.append_nil _).symm)
  cases hz with
  | cons hkeyword hz =>
    cases hz with
    | cons hparen hz =>
      exact ⟨_,.declaration hkeyword (.function rfl (.receiver hparen rfl))⟩

theorem words_exact_newlines :
    (∃ fits : (newlines 4294967295).bytes.length < UInt32.size,
      let w := Demand.run (WordReader.ofFile (newlines 4294967295) fits) [.skipPast 0]
      w.here.toPosition = ⟨4294967295,4294967294⟩ ∧ w.nextLine = 0 ∧ w.isAtEnd = true) ∧
    ∃ z, (Pass.start .standard #[] (Scanner.ofSource cutSample.reader .standard)).Enters (.bare .openParen ⟨1,3⟩) z ∧
      skipGroupWord (.bare .openParen ⟨1,3⟩) z = some (skipGroup (.bare .openParen ⟨1,3⟩) z) := by
  constructor
  · have fits : (newlines 4294967295).bytes.length < UInt32.size := by
      rw [newlines,List.length_replicate]
      decide
    have hshows := ((words_exact (newlines 4294967295) fits).1 [.skipPast 0]).2
    have hgiven := given_newlines 4294967295
    have hfile := (Place.run_reader (newlines 4294967295) [.skipPast 0]).1
    refine ⟨fits,?_,?_,?_⟩
    · rw [hshows.here,Place.here,hfile,hgiven,positionAt_newlines (by decide)]
    · rw [hshows.nextLine,hfile,hgiven,positionAt_newlines (by decide)]
      rfl
    · exact hshows.isAtEnd.mpr (next?_newlines _)
  · have fits : cutSample.bytes.length < UInt32.size := by decide
    obtain ⟨z,hz⟩ := enters_cutSample .standard
    exact ⟨z,hz,((words_exact cutSample fits).2 .standard .standard #[]).2 _ z hz⟩

end SourceTags
