import SourceTags.Proofs.Lockstep
import SourceTags.Proofs.StreamPrefix
import SourceTags.Proofs.Tail
import SourceTags.Proofs.TileScanning

/-! # One type is skipped

From the first token of a type the skipper reads the rest of the type and one token more, which it leaves as the
current one, whatever the stream. It stops there exactly if that token does not go on with the type: a dot goes on
with a name, and the start of a type with a signature that has no result so far.
-/
namespace SourceTags
open TokenStream

variable {τ : Type} [TokenStream τ] {t u : Token} {w rest : List Token} {e : TypeEnd}

theorem remaining_skipTypeExpr_lt {t t' : Token} {s s' : τ} (hf : TypeForm.ofToken t ≠ .missing)
    (h : skipTypeExpr t s = .token t' s') : remaining s' < remaining s := by
  rw [skipTypeExpr_eq] at h
  obtain ⟨u,r,hstart,hinner⟩ := Reading.andThen_eq_token.mp h
  have hle : remaining s' ≤ remaining r := by
    split at hinner
    · exact remaining_skipTypeExpr hinner
    · obtain ⟨-,rfl⟩ := Reading.token.inj hinner
      exact Nat.le_refl _
  have hlt : remaining r < remaining s := by
    by_cases hi : (TypeForm.ofToken t).hasInner
    · exact remaining_skipTypeStart_lt hi hstart
    · cases hform : TypeForm.ofToken t with
      | missing => exact absurd hform hf
      | element | signature | sign => exact absurd (by rw [hform]; rfl) hi
      | name =>
        rw [hform] at hstart
        exact remaining_skipTypeName hstart
      | body =>
        rw [hform] at hstart
        exact remaining_readGroup hstart
      | group =>
        rw [hform,skipTypeStart,skipGroup,TypeForm.kind_of_group hform] at hstart
        exact remaining_closeGroup hstart
  omega

theorem TypeEnd.goOn_eq_token_iff : e.goOn t rest = .token t rest ↔ e.Admits t := by
  constructor
  · intro h
    cases e with
    | name =>
      intro hd
      change (if t.kind = .dot then _ else _) = _ at h
      rw [if_pos hd] at h
      obtain ⟨_,r,hr,hr'⟩ := Reading.andThen_eq_token.mp h
      have hlt := remaining_advance hr
      have hlt' := remaining_advance hr'
      omega
    | signature =>
      change TypeForm.ofToken t = .missing
      refine Decidable.byContradiction fun hf => ?_
      have hlt := remaining_skipTypeExpr_lt hf h
      exact Nat.lt_irrefl _ hlt
    | closed => trivial
  · intro h
    exact h.goOn rest

/-- The rest of a type is passed with one token more, and no further token is read. -/
theorem skipTypeExpr_of_admits {s s' : τ} (hw : IsType (u :: w) e) (hs : Gives s (w ++ [t]) s') (ht : e.Admits t) :
    skipTypeExpr u s = .token t s' := by
  have hlist : skipTypeExpr u (w ++ [t]) = .token t [] := advance_skipTypeExpr hw ht
  have halike := hs.simulation.skipTypeExpr (t := u) rfl ⟨[],rfl,.nil⟩
  obtain ⟨s'',hr,passed,hpassed,hs''⟩ := halike.of_token hlist
  rw [List.append_nil] at hpassed
  obtain rfl := hs.unique (hpassed ▸ hs'')
  exact hr

theorem admits_of_skipTypeExpr {s s' : τ} (hw : IsType (u :: w) e) (hs : Gives s (w ++ [t]) s')
    (h : skipTypeExpr u s = .token t s') : e.Admits t := by
  have halike := simulation_tokens.skipTypeExpr (t := u) rfl (rfl : tokens s = tokens s)
  obtain ⟨r,hr,hr'⟩ := halike.of_token h
  have hlist : skipTypeExpr u (tokens s) = .token t (tokens s') := hr' ▸ hr
  rw [hs.tokens_eq,List.append_assoc,List.singleton_append] at hlist
  exact TypeEnd.goOn_eq_token_iff.mp ((advance_skipTypeExpr_goOn hw t _).symm.trans hlist)

/-- A type is skipped as a whole and nothing after it: from its first token the skipper comes to the token after
the type, and has read no further, exactly if that token does not go on with the type. The same holds of a pass,
which has then reported nothing. -/
theorem skipTypeExpr_isType {s s' : τ} (hw : IsType (u :: w) e) (hs : Gives s (w ++ [t]) s') :
    (skipTypeExpr u s = .token t s' ↔ e.Admits t) ∧
      ∀ p : Pass τ, skipTypeExpr u (p.withInput s) = .token t (p.withInput s') ↔ e.Admits t := by
  constructor
  · exact ⟨admits_of_skipTypeExpr hw hs,skipTypeExpr_of_admits hw hs⟩
  · intro p
    exact ⟨admits_of_skipTypeExpr hw (hs.pass p),skipTypeExpr_of_admits hw (hs.pass p)⟩

def functionTypeSample : SourceFile := ⟨Utf8.encode "&fn(a\n)[4]b c\n"⟩

def functionTypeTiles : List Tile :=
  [.punctuation Byte.ampersand .ampersand,.word 102 [110],.punctuation Byte.openParen .openParen,.word 97 [],
    .blank Byte.newline,.punctuation Byte.closeParen .closeParen,.punctuation Byte.openSquare .openSquare,.word 52 [],
    .punctuation Byte.closeSquare .closeSquare,.word 98 [],.blank Byte.space,.word 99 [],.blank Byte.newline]

def functionTypeTokens : List Token :=
  [⟨.keyword,some .kwFn,[102,110],⟨1,1⟩⟩,.bare .openParen ⟨1,3⟩,⟨.identifier,none,[97],⟨1,4⟩⟩,.bare .terminator ⟨1,5⟩,
    .bare .closeParen ⟨2,6⟩,.bare .openSquare ⟨2,7⟩,⟨.identifier,none,[52],⟨2,8⟩⟩,.bare .closeSquare ⟨2,9⟩,
    ⟨.identifier,none,[98],⟨2,10⟩⟩]

theorem tokens_functionTypeSample :
    tokens (Scanner.ofSource functionTypeSample.reader .standard) =
      .bare .ampersand ⟨1,0⟩ :: (functionTypeTokens ++
        [⟨.identifier,none,[99],⟨2,12⟩⟩,.bare .terminator ⟨2,13⟩]) := by
  have htiles : Tile.Tiled functionTypeTiles ∧ Tile.spell functionTypeTiles = functionTypeSample.content := by
    decide +kernel
  rw [functionTypeSample.tokens_reader,SourceFile.tokens_tiles htiles.1 htiles.2]
  decide

theorem isType_functionTypeTokens : IsType (.bare .ampersand ⟨1,0⟩ :: functionTypeTokens) .name := by
  have hword : Balanced .openParen .closeParen [⟨.identifier,none,[97],⟨1,4⟩⟩,.bare .terminator ⟨1,5⟩] :=
    .token (by decide) (by decide) (.token (by decide) (by decide) .nil)
  have hparams : Group .openParen ([.bare .openParen ⟨1,3⟩,⟨.identifier,none,[97],⟨1,4⟩⟩,.bare .terminator ⟨1,5⟩] ++
      [.bare .closeParen ⟨2,6⟩]) := .intro rfl rfl hword rfl
  have hlength : Group .openSquare ([.bare .openSquare ⟨2,7⟩,⟨.identifier,none,[52],⟨2,8⟩⟩] ++
      [.bare .closeSquare ⟨2,9⟩]) := .intro rfl rfl (.token (by decide) (by decide) .nil) rfl
  exact .sign (.inr (.inl rfl)) (.result rfl hparams (.element hlength (.name rfl)))

theorem skipTypeExpr_isType_sample :
    ∃ z z' : Scanner Reader, advance (Scanner.ofSource functionTypeSample.reader .standard) =
        .token (.bare .ampersand ⟨1,0⟩) z ∧
      Gives z (functionTypeTokens ++ [⟨.identifier,none,[99],⟨2,12⟩⟩]) z' ∧
      skipTypeExpr (.bare .ampersand ⟨1,0⟩) ((Pass.start .standard #[] z).withInput z) =
        .token ⟨.identifier,none,[99],⟨2,12⟩⟩ ((Pass.start .standard #[] z).withInput z') := by
  have htokens := tokens_functionTypeSample
  rw [← List.singleton_append (l := functionTypeTokens ++ _),List.append_cons functionTypeTokens,
    ← List.append_assoc] at htokens
  obtain ⟨z',hz',-⟩ := exists_gives htokens
  cases hz' with
  | @cons _ z _ _ _ ha hz =>
    refine ⟨z,z',ha,hz,?_⟩
    exact ((skipTypeExpr_isType isType_functionTypeTokens hz).2 _).mpr (show TokenKind.identifier ≠ .dot by decide)

end SourceTags
