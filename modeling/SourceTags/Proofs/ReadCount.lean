import SourceTags.Proofs.Lockstep
import SourceTags.Proofs.ReadingOn

/-! # How often a pass reads

Every token costs a byte or more of what a reader has left, the newline it owes and a byte taken back counted with the
rest. So a reading can fail only where nothing is left, and then all later ones fail too. A stream that counts how often
it is read goes like the stream that it counts for, and a pass over it is seen to read each token once and to fail once.
-/
namespace SourceTags
open TokenStream

/-- A stream with the number of readings that gave a token and of those that failed. -/
structure Counted (τ : Type) where
  stream : τ
  given : Nat
  failed : Nat

namespace Counted

variable {τ : Type} [TokenStream τ]

def start (s : τ) : Counted τ := ⟨s,0,0⟩

instance : TokenStream (Counted τ) where
  advance c :=
    match advance c.stream with
    | .token t rest => .token t ⟨rest,c.given + 1,c.failed⟩
    | .endOfInput left rest => .endOfInput left ⟨rest,c.given,c.failed + 1⟩
  remaining c := remaining c.stream
  remaining_advance := by
    intro c c' t h
    split at h
    · next ha =>
      obtain ⟨-,rfl⟩ := Reading.token.inj h
      exact remaining_advance ha
    · contradiction

variable {c c' : Counted τ} {t left : Token} {rest : τ}

theorem advance_token (h : advance c.stream = .token t rest) : advance c = .token t ⟨rest,c.given + 1,c.failed⟩ := by
  change (match advance c.stream with | .token t rest => _ | .endOfInput left rest => _) = _
  rw [h]

theorem advance_endOfInput (h : advance c.stream = .endOfInput left rest) :
    advance c = .endOfInput left ⟨rest,c.given,c.failed + 1⟩ := by
  change (match advance c.stream with | .token t rest => _ | .endOfInput left rest => _) = _
  rw [h]

theorem simulation : Simulation Eq (fun (c : Counted τ) (s : τ) => c.stream = s) True where
  kind h := congrArg _ h
  keyword h := congrArg _ h
  advance := by
    rintro c _ rfl
    cases ha : advance c.stream with
    | token t rest =>
      rw [advance_token ha]
      exact ⟨rfl,rfl⟩
    | endOfInput left rest =>
      rw [advance_endOfInput ha]
      exact fun _ => trivial

theorem tokens_eq (c : Counted τ) : tokens c = tokens c.stream :=
  List.forall₂_eq_eq_eq ▸ simulation.forall₂_tokens rfl

theorem of_gives {ts : List Token} (h : Gives c ts c') : c'.given = c.given + ts.length ∧ c'.failed = c.failed := by
  induction h with
  | nil => exact ⟨rfl,rfl⟩
  | @cons c c₁ _ t ts ha _ ih =>
    obtain ⟨hgiven,hfailed⟩ := ih
    cases hs : advance c.stream with
    | endOfInput =>
      rw [advance_endOfInput hs] at ha
      contradiction
    | token =>
      rw [advance_token hs] at ha
      obtain ⟨-,rfl⟩ := Reading.token.inj ha
      exact ⟨hgiven.trans (Nat.succ_add_eq_add_succ ..),hfailed⟩

theorem of_endOfInput (h : advance c = .endOfInput left c') : c'.given = c.given ∧ c'.failed = c.failed + 1 := by
  cases hs : advance c.stream with
  | token =>
    rw [advance_token hs] at h
    contradiction
  | endOfInput =>
    rw [advance_endOfInput hs] at h
    obtain ⟨-,rfl⟩ := Reading.endOfInput.inj h
    exact ⟨rfl,rfl⟩

/-- A pass reads every token once, and fails once. -/
theorem declarations (p : Pass (Counted τ)) :
    p.declarations.2.input.given = p.input.given + (tokens p.input.stream).length ∧
      p.declarations.2.input.failed = p.input.failed + 1 := by
  obtain ⟨e,left,he,hend⟩ := p.readsOn_declarations
  obtain ⟨hgiven,hfailed⟩ := of_gives he
  obtain ⟨hgiven',hfailed'⟩ := of_endOfInput hend
  rw [tokens_eq] at hgiven
  exact ⟨hgiven'.trans hgiven,hfailed'.trans (congrArg (· + 1) hfailed)⟩

end Counted

section Failure

variable {σ : Type} [ByteSource σ] {lexicon : Lexicon} {ends : Bool} {s rest : σ} {left : Token}

theorem next?_of_nextToken (h : nextToken lexicon ends s = .endOfInput left rest) :
    ByteSource.next? rest = none ∧ left = .bare .absent (ByteSource.lastPosition rest) := by
  fun_induction nextToken lexicon ends s with
  | case1 s _ hb =>
    have hnone := unread_afterBlanks ends s
    rw [hb] at hnone
    obtain ⟨rfl,rfl⟩ := Reading.endOfInput.inj h
    exact ⟨hnone.1,rfl⟩
  | case2 | case3 => contradiction
  | case4 _ _ _ _ _ _ ih => exact ih h

theorem advance_of_endOfInput {z z' : Scanner σ} (h : advance z = .endOfInput left z') :
    ByteSource.next? z'.source = none ∧ advance z' = .endOfInput left z' := by
  change z.advance = _ at h
  unfold Scanner.advance at h
  split at h
  · contradiction
  · next hs =>
    obtain ⟨rfl,rfl⟩ := Reading.endOfInput.inj h
    obtain ⟨hnone,rfl⟩ := next?_of_nextToken hs
    refine ⟨hnone,?_⟩
    change Scanner.advance _ = _
    unfold Scanner.advance
    rw [nextToken_endOfInput (afterBlanks_none hnone)]

end Failure

theorem Reader.unread_eq_zero {r : Reader} (h : r.next? = none) : r.unread = 0 := by
  have hend := r.isAtEnd_iff.mpr h
  simp only [isAtEnd,Bool.and_eq_true,Option.isNone_iff_eq_none,List.isEmpty_iff,Bool.not_eq_true'] at hend
  obtain ⟨⟨hheld,hrest⟩,howes⟩ := hend
  rw [unread,hheld,hrest,howes]
  rfl

theorem SourceFile.unread_reader (f : SourceFile) : f.reader.unread = f.content.length := by
  have hunread : f.reader.unread = f.body.length + f.reader.owesNewline.toNat := by
    change 0 + f.body.length + _ = _
    rw [Nat.zero_add]
  rw [hunread,owesNewline_reader,content]
  split <;> simp_all

/-- Every token that is read from a file lowers what its reader has left, and a reading that fails leaves nothing and is
followed by failures only. At first the content of the file is left, so it has no more tokens than bytes. A pass reads
each of them once and fails once, whatever the file says: so often the same pass reads where its readings are counted. -/
theorem reads_once (f : SourceFile) (lexicon : Lexicon) (settings : TagSettings) (tags : Array Tag) :
    (∀ z : Scanner Reader, match advance z with
      | .token _ z' => z'.source.unread < z.source.unread
      | .endOfInput left z' => z'.source.unread = 0 ∧ advance z' = .endOfInput left z') ∧
    f.reader.unread = f.content.length ∧
    let z := Scanner.ofSource f.reader lexicon
    let p := (Pass.start settings tags (Counted.start z)).declarations.2
    p.input.given = (tokens z).length ∧ (tokens z).length ≤ f.content.length ∧ p.input.failed = 1 ∧
      (p.tags,p.count) = tagSource settings lexicon tags f.reader := by
  refine ⟨?_,f.unread_reader,?_⟩
  · intro z
    cases ha : advance z with
    | token => exact Scanner.unread_advance ha
    | endOfInput =>
      obtain ⟨hnone,hagain⟩ := advance_of_endOfInput ha
      exact ⟨Reader.unread_eq_zero hnone,hagain⟩
  · intro z p
    obtain ⟨hgiven,hfailed⟩ := Counted.declarations (Pass.start settings tags (Counted.start z))
    obtain ⟨e,he,-⟩ := exists_gives (List.append_nil (tokens z)).symm
    have hlength : (tokens z).length ≤ f.content.length := by
      have hbound : remaining e + (tokens z).length ≤ f.reader.unread := he.remaining_add_length_le
      rw [f.unread_reader] at hbound
      omega
    have hreports : Pass.SameReports p (Pass.start settings tags z).declarations.2 :=
      Counted.simulation.declarations kept_sameReports rfl ⟨rfl,rfl,rfl⟩
    refine ⟨hgiven.trans (Nat.zero_add _),hlength,hfailed,?_⟩
    exact Prod.ext hreports.2.1 hreports.2.2

end SourceTags
