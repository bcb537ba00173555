import SourceTags.Proofs.Lockstep
import SourceTags.Proofs.Nesting
import SourceTags.Proofs.StreamPrefix
import SourceTags.Proofs.WellFormed

/-! # Where a binding ends

A binding whose names stand in no group ends at a terminator, and no later than at the first one outside all groups
of what follows the names. It comes to that terminator exactly if what stands before it is a tail, in which a
terminator stands only inside a group that directly follows a passed token. A group that is current already when the
search begins, as is one directly after the type or directly after another group, is read token by token instead:
its first newline ends the declaration, and what follows in the group is taken for declarations.
-/
namespace SourceTags
open TokenStream

section Scanner

variable {σ : Type} [ByteSource σ] {lexicon : Lexicon} {ends : Bool} {t : Token} {s rest : σ}

theorem TokenKind.ne_terminator_of_ofByte? {b : UInt8} {kind : TokenKind} (h : ofByte? b = some kind) :
    kind ≠ .terminator := by
  obtain ⟨before,after,hp,-⟩ := List.lookup_eq_some_iff.mp h
  have hall : ∀ x ∈ punctuation, x.2 ≠ .terminator := by decide
  exact hall (b,kind) (hp ▸ by simp)

theorem kind_of_lexeme {b : UInt8} (h : lexeme lexicon b s = .token t rest) : t.kind ≠ .terminator := by
  unfold lexeme lexemeAtSlash lexemeAtLess at h
  split at h
  · repeat' split at h
    all_goals cases h
    all_goals simp [Token.bare]
  split at h
  · repeat' split at h
    all_goals cases h
    all_goals simp [Token.bare]
  split at h
  · cases h
    simp
  split at h
  · next kind hkind =>
    cases h
    exact TokenKind.ne_terminator_of_ofByte? hkind
  · cases h
    unfold Token.ofWord
    split <;> simp

theorem ends_of_afterBlanks (h : afterBlanks ends s = .terminator rest) : ends = true := by
  fun_induction afterBlanks ends s with
  | case1 | case4 => contradiction
  | case2 _ _ _ _ ht => exact (Bool.and_eq_true_iff.mp ht).1
  | case3 _ _ _ _ _ _ ih => exact ih h

theorem ends_of_nextToken (h : nextToken lexicon ends s = .token t rest) (ht : t.kind = .terminator) :
    ends = true := by
  fun_induction nextToken lexicon ends s with
  | case1 => contradiction
  | case2 _ _ hb => exact ends_of_afterBlanks hb
  | case3 _ _ _ _ _ _ hl =>
    obtain ⟨rfl,-⟩ := Reading.token.inj h
    exact absurd ht (kind_of_lexeme hl)
  | case4 _ _ _ _ _ _ ih => exact ih h

/-- Whatever source a scanner reads, no terminator follows a token that cannot end a statement. -/
theorem settled_of_gives {z z' : Scanner σ} {ts : List Token} (h : Gives z ts z') :
    (∀ e ∈ ts.head?, e.kind = .terminator → z.previous.mayEndStatement = true) ∧ Settled ts := by
  induction h with
  | nil => exact ⟨by simp,.nil⟩
  | @cons z z₁ _ t ts ha _ ih =>
    have hstep : (t.kind = .terminator → z.previous.mayEndStatement = true) ∧ z₁.previous = t.kind := by
      change z.advance = _ at ha
      unfold Scanner.advance at ha
      split at ha
      · next hnext =>
        obtain ⟨rfl,rfl⟩ := Reading.token.inj ha
        exact ⟨ends_of_nextToken hnext,rfl⟩
      · contradiction
    constructor
    · intro e he
      obtain rfl := Option.some.inj he
      exact hstep.1
    · rw [hstep.2] at ih
      exact List.isChain_cons.mpr ih

end Scanner

namespace Pass

variable {τ υ : Type}

theorem SameReports.reportAll {p : Pass τ} {q : Pass υ} (h : p.SameReports q)
    (found : List (DeclarationKind × Token)) : (p.reportAll found).SameReports (q.reportAll found) := by
  induction found generalizing p q with
  | nil => exact h
  | cons d found ih => exact ih (kept_sameReports.report d.1 rfl h)

theorem SameReports.eq_withInput {p q : Pass τ} {r : Pass υ} (hp : r.SameReports p) (hq : r.SameReports q) :
    p = q.withInput p.input := by
  obtain ⟨hps,hpt,hpc⟩ := hp
  obtain ⟨hqs,hqt,hqc⟩ := hq
  cases p
  cases q
  simp_all [withInput]

end Pass

section Binding

variable {ns names w : List Token} {e : Token}

theorem binding_tail (hn : NamePlaces ns names) (hfirst : ∀ t ∈ names.head?, t.kind ≠ .openParen) (hw : Tail w)
    (hh : ∀ t ∈ w.head?, t.kind ≠ .comma) (he : e.kind = .terminator) (kind : DeclarationKind) (t : Token)
    (rest : List Token) (p : Pass (List Token)) :
    (p.withInput (ns ++ (w ++ e :: rest))).binding kind t =
      .token e ((p.reportAll (names.map (Prod.mk kind))).withInput rest) := by
  obtain ⟨first,s,init,last,hr,hhead,rfl,hnames⟩ := Pass.names_namePlaces hn kind false (w ++ e :: rest) p
  have hafter : afterName false (w ++ e :: rest) = .done e rest :=
    afterName_tail hw (fun t ht => ⟨hh t ht,by simp⟩) he
  unfold Pass.binding
  rw [Pass.input_withInput,hr]
  dsimp only
  rw [if_neg (hfirst first hhead),Pass.withInput_withInput,hnames,Pass.names_eq,Pass.input_withInput,hafter,
    List.map_append,Pass.reportAll_append]
  rfl

theorem binding_gives_tail {τ : Type} [TokenStream τ] {s s' : τ} (hn : NamePlaces ns names)
    (hfirst : ∀ t ∈ names.head?, t.kind ≠ .openParen) (hw : Tail w) (hh : ∀ t ∈ w.head?, t.kind ≠ .comma)
    (he : e.kind = .terminator) (hs : Gives s (ns ++ (w ++ [e])) s') (kind : DeclarationKind) (t : Token) (p : Pass τ) :
    (p.withInput s).binding kind t = .token e ((p.reportAll (names.map (Prod.mk kind))).withInput s') := by
  let q : Pass (List Token) := ⟨ns ++ (w ++ [e]),p.settings,p.tags,p.count⟩
  have hq : q.SameReports p := ⟨rfl,rfl,rfl⟩
  have halike : hs.simulation.PassAlike Pass.SameReports (q.binding kind t) ((p.withInput s).binding kind t) :=
    hs.simulation.binding kept_sameReports kind ⟨[],rfl,.nil⟩ hq
  obtain ⟨r,hr,⟨passed,hpassed,hgives⟩,hreports⟩ := halike.of_token (binding_tail hn hfirst hw hh he kind t [] q)
  have hinput : r.input = s' := hgives.unique ((hpassed.trans (List.append_nil _)) ▸ hs)
  rw [hr,hreports.eq_withInput (hq.reportAll _),hinput]

variable {σ : Type} [ByteSource σ] {z z' : Scanner σ}

/-- A binding always ends, and no later than at the first terminator outside all groups after its names. It ends at
that terminator, with nothing read after it, exactly if the tokens before it are a tail. -/
theorem binding_nested (hn : NamePlaces ns names) (hfirst : ∀ t ∈ names.head?, t.kind ≠ .openParen)
    (hw : Nested false w) (hh : ∀ t ∈ w.head?, t.kind ≠ .comma) (he : e.kind = .terminator)
    (hz : Gives z (ns ++ (w ++ [e])) z') (kind : DeclarationKind) (t : Token) (p : Pass (Scanner σ)) :
    (∃ w₀ e₀ w₁ z₀, w ++ [e] = w₀ ++ e₀ :: w₁ ∧ e₀.kind = .terminator ∧ Tail w₀ ∧
      Gives z (ns ++ (w₀ ++ [e₀])) z₀ ∧
      (p.withInput z).binding kind t = .token e₀ ((p.reportAll (names.map (Prod.mk kind))).withInput z₀)) ∧
    ((p.withInput z).binding kind t = .token e ((p.reportAll (names.map (Prod.mk kind))).withInput z') ↔
      Tail w) := by
  have hdot : ∀ t ∈ w.getLast?, t.kind ≠ .dot := by
    intro u hu hk
    obtain ⟨before,rfl⟩ := List.getLast?_eq_some_iff.mp hu
    have hpair : [u,e] <:+ ns ++ (before ++ [u] ++ [e]) := ⟨ns ++ before,by simp⟩
    exact ((settled_of_gives hz).2.of_suffix hpair).kind_next (by rw [hk]; rfl) he
  obtain ⟨w₀,e₀,w₁,hsplit,he₀,htail⟩ := hw.matched.exists_tail hdot he
  have hwhole : ns ++ (w ++ [e]) = (ns ++ (w₀ ++ [e₀])) ++ w₁ := by simp [hsplit]
  obtain ⟨z₀,hz₀,hrest⟩ := (hwhole ▸ hz).split
  have hbefore : w₀ <+: w := by
    have hprefix : w₀ <+: w ++ [e] := ⟨_,hsplit.symm⟩
    refine (List.prefix_concat_iff.mp hprefix).resolve_left ?_
    rintro rfl
    simpa using congrArg List.length hsplit
  have hends := binding_gives_tail hn hfirst htail (head?_of_isPrefix hh hbefore) he₀ hz₀ kind t p
  refine ⟨⟨w₀,e₀,w₁,z₀,hsplit,he₀,htail,hz₀,hends⟩,?_,?_⟩
  · intro h
    have hsame : z₀ = z' := congrArg Pass.input (Reading.token.inj (hends.symm.trans h)).2
    have hlength := hrest.remaining_add_length_le
    rw [hsame] at hlength
    obtain rfl : w₁ = [] := List.eq_nil_of_length_eq_zero (by omega)
    obtain ⟨rfl,-⟩ := List.append_inj' hsplit rfl
    exact htail
  · intro h
    exact binding_gives_tail hn hfirst h hh he hz kind t p

end Binding

def callSample : SourceFile := ⟨Utf8.encode "let v int = f(a\nb)\n"⟩

def callArguments : List Token :=
  [⟨.identifier,none,[97],⟨1,14⟩⟩,.bare .terminator ⟨1,15⟩,⟨.identifier,none,[98],⟨2,16⟩⟩]

def callTail : List Token :=
  [⟨.identifier,none,[105,110,116],⟨1,6⟩⟩,⟨.identifier,none,[61],⟨1,10⟩⟩,⟨.identifier,none,[102],⟨1,12⟩⟩] ++
    .bare .openParen ⟨1,13⟩ :: (callArguments ++ [.bare .closeParen ⟨2,17⟩])

theorem tokens_callSample :
    tokens (Scanner.ofSource callSample.reader .standard) =
      ⟨.keyword,some .kwLet,[108,101,116],⟨1,0⟩⟩ :: ([⟨.identifier,none,[118],⟨1,4⟩⟩] ++
        (callTail ++ [.bare .terminator ⟨2,18⟩])) := by
  let tiles : List Tile :=
    [.word 108 [101,116],.blank Byte.space,.word 118 [],.blank Byte.space,.word 105 [110,116],.blank Byte.space,
      .word 61 [],.blank Byte.space,.word 102 [],.punctuation Byte.openParen .openParen,.word 97 [],
      .blank Byte.newline,.word 98 [],.punctuation Byte.closeParen .closeParen,.blank Byte.newline]
  have htiles : Tile.Tiled tiles ∧ Tile.spell tiles = callSample.content := by decide +kernel
  rw [callSample.tokens_reader,SourceFile.tokens_tiles htiles.1 htiles.2]
  decide

theorem tail_callTail : Tail callTail := by
  have harguments : Balanced .openParen .closeParen callArguments :=
    .token (by decide) (by decide) (.token (by decide) (by decide) (.token (by decide) (by decide) .nil))
  have hcall : Pieces (⟨.identifier,none,[102],⟨1,12⟩⟩ ::
      ((.bare .openParen ⟨1,13⟩ :: (callArguments ++ [.bare .closeParen ⟨2,17⟩])) ++ [])) :=
    .group (by decide) (.intro rfl rfl harguments rfl) .nil
  exact .name rfl (by decide) (.token (by decide) (by simp [NoGroupAhead,TokenKind.closer]) hcall)

theorem nested_callTail : Nested false callTail := by
  have harguments : Nested true callArguments :=
    .token (by decide) (by simp) (.token (by decide) (by simp) (.token (by decide) (by simp) .nil))
  have hcall : Nested false (.bare .openParen ⟨1,13⟩ :: (callArguments ++ [.bare .closeParen ⟨2,17⟩])) :=
    .group rfl harguments .nil
  exact .token (by decide) (by simp) (.token (by decide) (by simp) (.token (by decide) (by simp) hcall))

theorem binding_nested_call :
    ∃ z z' : Scanner Reader,
      advance (Scanner.ofSource callSample.reader .standard) = .token ⟨.keyword,some .kwLet,[108,101,116],⟨1,0⟩⟩ z ∧
      Gives z ([⟨.identifier,none,[118],⟨1,4⟩⟩] ++ (callTail ++ [.bare .terminator ⟨2,18⟩])) z' ∧
      ((Pass.start .standard #[] z).withInput z).binding .binding .fresh = .token (.bare .terminator ⟨2,18⟩)
        (((Pass.start .standard #[] z).reportAll [(.binding,⟨.identifier,none,[118],⟨1,4⟩⟩)]).withInput z') := by
  obtain ⟨z',hz',-⟩ := exists_gives (tokens_callSample.trans (List.append_nil _).symm)
  cases hz' with
  | @cons _ z _ _ _ ha hz =>
    refine ⟨z,z',ha,hz,?_⟩
    exact (binding_nested (.one (.plain (by decide))) (by decide) nested_callTail (by decide) rfl hz .binding .fresh
      (Pass.start .standard #[] z)).2.mpr tail_callTail

/-- A group right after the word that is taken for the type, with a binding in it. -/
def initializerSample : SourceFile := ⟨Utf8.encode "let v = (a\nlet b = c\n)\n"⟩

def initializerGroup : List Token :=
  [⟨.identifier,none,[97],⟨1,9⟩⟩,.bare .terminator ⟨1,10⟩,⟨.keyword,some .kwLet,[108,101,116],⟨2,11⟩⟩,
    ⟨.identifier,none,[98],⟨2,15⟩⟩,⟨.identifier,none,[61],⟨2,17⟩⟩,⟨.identifier,none,[99],⟨2,19⟩⟩,
    .bare .terminator ⟨2,20⟩]

def initializerTail : List Token :=
  ⟨.identifier,none,[61],⟨1,6⟩⟩ :: .bare .openParen ⟨1,8⟩ :: (initializerGroup ++ [.bare .closeParen ⟨3,21⟩])

theorem tokens_initializerSample :
    initializerSample.tokens .standard =
      ⟨.keyword,some .kwLet,[108,101,116],⟨1,0⟩⟩ :: ([⟨.identifier,none,[118],⟨1,4⟩⟩] ++
        (initializerTail ++ [.bare .terminator ⟨3,22⟩])) := by
  let tiles : List Tile :=
    [.word 108 [101,116],.blank Byte.space,.word 118 [],.blank Byte.space,.word 61 [],.blank Byte.space,
      .punctuation Byte.openParen .openParen,.word 97 [],.blank Byte.newline,.word 108 [101,116],.blank Byte.space,
      .word 98 [],.blank Byte.space,.word 61 [],.blank Byte.space,.word 99 [],.blank Byte.newline,
      .punctuation Byte.closeParen .closeParen,.blank Byte.newline]
  have htiles : Tile.Tiled tiles ∧ Tile.spell tiles = initializerSample.content := by decide +kernel
  rw [SourceFile.tokens_tiles htiles.1 htiles.2]
  decide

/-- The brackets are nested and the only newline outside them comes last, yet the declaration ends at the first
newline inside them, and what follows there is reported as a declaration of its own. -/
theorem tagSource_initializer :
    initializerSample.tokens .standard =
      ⟨.keyword,some .kwLet,[108,101,116],⟨1,0⟩⟩ :: ([⟨.identifier,none,[118],⟨1,4⟩⟩] ++
        (initializerTail ++ [.bare .terminator ⟨3,22⟩])) ∧
    Nested false initializerTail ∧
    tagSource .standard .standard #[] initializerSample.reader =
      (#[⟨"v",.binding,⟨1,4⟩⟩,⟨"b",.binding,⟨2,15⟩⟩],2) := by
  have hgroup : Nested true initializerGroup := by
    repeat' first | exact .nil | refine .token (by decide) (by simp) ?_
  have hnested : Nested false initializerTail := .token (by decide) (by simp) (.group rfl hgroup .nil)
  have hfirst : DeclarationTokens
      [⟨.keyword,some .kwLet,[108,101,116],⟨1,0⟩⟩,⟨.identifier,none,[118],⟨1,4⟩⟩,⟨.identifier,none,[61],⟨1,6⟩⟩,
        .bare .openParen ⟨1,8⟩,⟨.identifier,none,[97],⟨1,9⟩⟩] [(.binding,⟨.identifier,none,[118],⟨1,4⟩⟩)] :=
    .binding rfl (.spec (.intro (.one (.plain rfl)) (.name rfl (by decide) (.token (by decide)
      (by simp [NoGroupAhead,TokenKind.closer]) (.token (by decide) (by simp [NoGroupAhead]) .nil))) (by simp)))
  have hsecond : DeclarationTokens
      [⟨.keyword,some .kwLet,[108,101,116],⟨2,11⟩⟩,⟨.identifier,none,[98],⟨2,15⟩⟩,⟨.identifier,none,[61],⟨2,17⟩⟩,
        ⟨.identifier,none,[99],⟨2,19⟩⟩] [(.binding,⟨.identifier,none,[98],⟨2,15⟩⟩)] :=
    .binding rfl (.spec (.intro (.one (.plain rfl)) (.name rfl (by decide) (.token (by decide)
      (by simp [NoGroupAhead]) .nil)) (by simp)))
  have hrest : WellFormed [.bare .closeParen ⟨3,21⟩,.bare .terminator ⟨3,22⟩] [] :=
    .filler (Token.not_introduces rfl) (.filler (Token.not_introduces rfl) .nil)
  have hfile : WellFormed (initializerSample.tokens .standard)
      [(.binding,⟨.identifier,none,[118],⟨1,4⟩⟩),(.binding,⟨.identifier,none,[98],⟨2,15⟩⟩)] := by
    rw [tokens_initializerSample]
    exact .declaration hfirst rfl (.declaration hsecond rfl hrest)
  refine ⟨tokens_initializerSample,hnested,?_⟩
  rw [tagSource_eq_tagTokens,tagTokens_wellFormed hfile (initializerSample.scanned_tokens .standard)]
  rfl

end SourceTags
