import Mathlib.Order.Bounds.Basic
import SourceTags.Proofs.Lockstep
import SourceTags.Proofs.ReadingOn
import SourceTags.Proofs.TileScanning

/-! # Where a group ends

A group that a bracket has opened ends where closing brackets of its kind first outnumber opening ones, whatever
stands between them: brackets of other kinds do not count, matched or not, and terminators are passed. One token more
is read then. If there is none, or if the group has no end, all tokens are read.
-/
namespace SourceTags
open TokenStream

/-- So many tokens are the fewest among which closing brackets outnumber opening ones by the excess. -/
def ClosesAfter (opening closing : TokenKind) (excess : Nat) (u : List Token) : Nat → Prop :=
  IsLeast {n | (u.take n).countP (·.kind = closing) = (u.take n).countP (·.kind = opening) + excess}

section Counting

variable {opening closing : TokenKind} {t : Token} {u : List Token} {excess n : Nat}

theorem closesAfter_zero (opening closing : TokenKind) (u : List Token) : ClosesAfter opening closing 0 u 0 :=
  ⟨rfl,fun _ _ => Nat.zero_le _⟩

theorem ClosesAfter.pos (h : ClosesAfter opening closing (excess + 1) u n) : n ≠ 0 := by
  rintro rfl
  have hcount := h.1
  simp at hcount

theorem closesAfter_cons {excess' : Nat} (hc : (if t.kind = closing then 1 else 0) + excess' =
    (if t.kind = opening then 1 else 0) + (excess + 1)) :
    ClosesAfter opening closing (excess + 1) (t :: u) (n + 1) ↔ ClosesAfter opening closing excess' u n := by
  have hcount : ∀ m, ((t :: u).take (m + 1)).countP (·.kind = closing) =
        ((t :: u).take (m + 1)).countP (·.kind = opening) + (excess + 1) ↔
      (u.take m).countP (·.kind = closing) = (u.take m).countP (·.kind = opening) + excess' := by
    intro m
    simp only [List.take_succ_cons,List.countP_cons,decide_eq_true_eq]
    omega
  constructor
  · rintro ⟨hn,hleast⟩
    refine ⟨(hcount n).mp hn,?_⟩
    intro m hm
    exact Nat.le_of_succ_le_succ (hleast ((hcount m).mpr hm))
  · rintro ⟨hn,hleast⟩
    refine ⟨(hcount n).mpr hn,?_⟩
    intro m hm
    cases m with
    | zero => simp at hm
    | succ m => exact Nat.succ_le_succ (hleast ((hcount m).mp hm))

/-- Reading through the end of a group comes to the token after it, if there is one. -/
theorem closeGroup_of_closesAfter (hne : closing ≠ opening) {inner : Nat}
    (h : ClosesAfter opening closing (inner + 1) u n) : closeGroup opening closing inner u = advance (u.drop n) := by
  induction u generalizing inner n with
  | nil =>
    have hcount := h.1
    simp at hcount
  | cons t u ih =>
    obtain ⟨n,rfl⟩ := Nat.exists_eq_succ_of_ne_zero h.pos
    rw [closeGroup_token (advance_cons ..),List.drop_succ_cons]
    by_cases ho : t.kind = opening
    · have hc : t.kind ≠ closing := fun hc => hne (hc.symm.trans ho)
      rw [if_pos ho]
      exact ih ((closesAfter_cons (by rw [if_neg hc,if_pos ho]; omega)).mp h)
    rw [if_neg ho]
    by_cases hc : t.kind = closing
    · rw [if_pos hc]
      have hless : ClosesAfter opening closing inner u n := (closesAfter_cons (by rw [if_pos hc,if_neg ho]; omega)).mp h
      cases inner with
      | zero =>
        obtain rfl : n = 0 := Nat.le_zero.mp (hless.2 (closesAfter_zero ..).1)
        rfl
      | succ inner => exact ih hless
    · rw [if_neg hc]
      exact ih ((closesAfter_cons (by rw [if_neg hc,if_neg ho])).mp h)

theorem closeGroup_of_not_closesAfter (hne : closing ≠ opening) {inner : Nat}
    (h : ∀ n, ¬ClosesAfter opening closing (inner + 1) u n) :
    closeGroup opening closing inner u = .endOfInput .fresh [] := by
  induction u generalizing inner with
  | nil => exact closeGroup_endOfInput advance_nil
  | cons t u ih =>
    rw [closeGroup_token (advance_cons ..)]
    by_cases ho : t.kind = opening
    · have hc : t.kind ≠ closing := fun hc => hne (hc.symm.trans ho)
      rw [if_pos ho]
      exact ih fun n hn => h (n + 1) ((closesAfter_cons (by rw [if_neg hc,if_pos ho]; omega)).mpr hn)
    rw [if_neg ho]
    by_cases hc : t.kind = closing
    · have hless : ∀ n, ¬ClosesAfter opening closing inner u n := fun n hn =>
        h (n + 1) ((closesAfter_cons (by rw [if_pos hc,if_neg ho]; omega)).mpr hn)
      rw [if_pos hc]
      cases inner with
      | zero => exact absurd (closesAfter_zero ..) (hless 0)
      | succ inner => exact ih hless
    · rw [if_neg hc]
      exact ih fun n hn => h (n + 1) ((closesAfter_cons (by rw [if_neg hc,if_neg ho])).mpr hn)

end Counting

namespace Reading

variable {τ υ : Type}

theorem andThen_map {f : τ → υ} {r : Reading τ} {g : Token → τ → Reading τ} {g' : Token → υ → Reading υ}
    (h : ∀ t s, r = token t s → g' t (f s) = (g t s).map f) : (r.map f).andThen g' = (r.andThen g).map f := by
  cases r with
  | token t s => exact h t s rfl
  | endOfInput => rfl

end Reading

section Streams

variable {τ : Type} [TokenStream τ]

theorem closeGroup_pass (opening closing : TokenKind) (inner : Nat) (p : Pass τ) (s : τ) :
    closeGroup opening closing inner (p.withInput s) = (closeGroup opening closing inner s).map p.withInput := by
  rw [closeGroup_eq,closeGroup_eq]
  apply Reading.andThen_map
  intro t s' ha
  have := remaining_advance ha
  split
  · exact closeGroup_pass ..
  · split
    · cases inner with
      | zero => rfl
      | succ inner => exact closeGroup_pass ..
    · exact closeGroup_pass ..
termination_by remaining s

theorem skipGroup_pass (t : Token) (p : Pass τ) (s : τ) :
    skipGroup t (p.withInput s) = (skipGroup t s).map p.withInput := by
  unfold skipGroup
  split
  · rfl
  · exact closeGroup_pass ..

variable {t : Token} {s : τ} {closing : TokenKind} {n : Nat}

theorem skipGroup_of_closesAfter {x : Token} (hclosing : t.kind.closer = some closing)
    (hn : ClosesAfter t.kind closing 1 (tokens s) n) (hx : (tokens s)[n]? = some x) :
    ∃ s', Gives s ((tokens s).take (n + 1)) s' ∧ skipGroup t s = .token x s' := by
  obtain ⟨hlt,hget⟩ := List.getElem?_eq_some_iff.mp hx
  have hlist : skipGroup t (tokens s) = .token x ((tokens s).drop (n + 1)) := by
    rw [skipGroup,hclosing]
    dsimp only
    rw [closeGroup_of_closesAfter (TokenKind.closer_ne hclosing).symm hn,List.drop_eq_getElem_cons hlt,hget,advance_cons]
  have halike := simulation_tokens.skipGroup (t := t) rfl (rfl : tokens s = tokens s)
  have hreads := readsOn_skipGroup t s
  rw [hlist] at halike
  cases hr : skipGroup t s with
  | endOfInput =>
    rw [hr] at halike
    exact absurd trivial halike
  | token y s' =>
    rw [hr] at halike hreads
    obtain ⟨rfl,hrest⟩ := halike
    obtain ⟨ts,hts⟩ := hreads
    obtain rfl : ts = (tokens s).take (n + 1) := by
      apply hts.eq_of_tokens
      rw [hrest,List.take_append_drop]
    exact ⟨s',hts,rfl⟩

theorem skipGroup_of_no_token (hclosing : t.kind.closer = some closing)
    (h : ∀ n, ClosesAfter t.kind closing 1 (tokens s) n → (tokens s).length ≤ n) :
    ∃ e left left' s', Gives s (tokens s) e ∧ advance e = .endOfInput left s' ∧ skipGroup t s = .endOfInput left' s' := by
  have hne := (TokenKind.closer_ne hclosing).symm
  have hlist : skipGroup t (tokens s) = .endOfInput .fresh [] := by
    rw [skipGroup,hclosing]
    dsimp only
    by_cases hclosed : ∃ n, ClosesAfter t.kind closing 1 (tokens s) n
    · obtain ⟨n,hn⟩ := hclosed
      rw [closeGroup_of_closesAfter hne hn,List.drop_eq_nil_of_le (h n hn),advance_nil]
    · exact closeGroup_of_not_closesAfter hne fun n hn => hclosed ⟨n,hn⟩
  have halike := simulation_tokens.skipGroup (t := t) rfl (rfl : tokens s = tokens s)
  have hreads := readsOn_skipGroup t s
  rw [hlist] at halike
  cases hr : skipGroup t s with
  | token =>
    rw [hr] at halike
    exact halike.elim
  | endOfInput left' s' =>
    rw [hr] at hreads
    obtain ⟨ts,e,left,hts,he⟩ := hreads
    exact ⟨e,left,left',s',hts.eq_tokens he ▸ hts,he,rfl⟩

/-- A token that opens no group is left as it is. From an opening bracket the tokens are read up to the first place
where brackets of its kind have closed once more than they have opened, and one token after it, which is current then.
Where there is no such place, or no token after it, all tokens are read and the input ends. A pass reports nothing on
the way. -/
theorem skipGroup_exact (t : Token) (s : τ) :
    (t.kind.closer = none → skipGroup t s = .token t s) ∧
    (∀ closing, t.kind.closer = some closing →
      (∀ n x, ClosesAfter t.kind closing 1 (tokens s) n → (tokens s)[n]? = some x →
        ∃ s', Gives s ((tokens s).take (n + 1)) s' ∧ skipGroup t s = .token x s') ∧
      ((∀ n, ClosesAfter t.kind closing 1 (tokens s) n → (tokens s).length ≤ n) →
        ∃ e left left' s', Gives s (tokens s) e ∧ advance e = .endOfInput left s' ∧
          skipGroup t s = .endOfInput left' s')) ∧
    ∀ p : Pass τ, skipGroup t (p.withInput s) = (skipGroup t s).map p.withInput := by
  refine ⟨fun h => skipGroup_of_closer_eq_none h s,?_,fun p => skipGroup_pass t p s⟩
  intro closing hclosing
  constructor
  · intro n x hn hx
    exact skipGroup_of_closesAfter hclosing hn hx
  · exact skipGroup_of_no_token hclosing

end Streams

def interleavedSample : SourceFile := ⟨Utf8.encode "([(])\n\x7b)x\n"⟩

def interleavedTokens : List Token :=
  [.bare .openSquare ⟨1,1⟩,.bare .openParen ⟨1,2⟩,.bare .closeSquare ⟨1,3⟩,.bare .closeParen ⟨1,4⟩,
    .bare .terminator ⟨1,5⟩,.bare .openCurly ⟨2,6⟩,.bare .closeParen ⟨2,7⟩,⟨.identifier,none,[120],⟨2,8⟩⟩,
    .bare .terminator ⟨2,9⟩]

theorem tokens_interleavedSample :
    tokens (Scanner.ofSource interleavedSample.reader .standard) = .bare .openParen ⟨1,0⟩ :: interleavedTokens := by
  let tiles : List Tile :=
    [.punctuation Byte.openParen .openParen,.punctuation Byte.openSquare .openSquare,
      .punctuation Byte.openParen .openParen,.punctuation Byte.closeSquare .closeSquare,
      .punctuation Byte.closeParen .closeParen,.blank Byte.newline,.punctuation Byte.openCurly .openCurly,
      .punctuation Byte.closeParen .closeParen,.word 120 [],.blank Byte.newline]
  have htiles : Tile.Tiled tiles ∧ Tile.spell tiles = interleavedSample.content := by decide +kernel
  rw [interleavedSample.tokens_reader,SourceFile.tokens_tiles htiles.1 htiles.2]
  decide

theorem closesAfter_interleavedTokens : ClosesAfter .openParen .closeParen 1 interleavedTokens 7 := by
  have hless : ∀ m < 7, (interleavedTokens.take m).countP (·.kind = .closeParen) ≠
      (interleavedTokens.take m).countP (·.kind = .openParen) + 1 := by decide
  refine ⟨by decide,?_⟩
  intro m hm
  exact Nat.le_of_not_lt fun hlt => hless m hlt hm

theorem skipGroup_exact_interleaved :
    ∃ z z' : Scanner Reader,
      advance (Scanner.ofSource interleavedSample.reader .standard) = .token (.bare .openParen ⟨1,0⟩) z ∧
      Gives z (interleavedTokens.take 8) z' ∧
      skipGroup (.bare .openParen ⟨1,0⟩) z = .token ⟨.identifier,none,[120],⟨2,8⟩⟩ z' := by
  have htokens := tokens_interleavedSample
  rw [← List.singleton_append] at htokens
  obtain ⟨z,hz,hrest⟩ := exists_gives htokens
  cases hz with
  | cons ha hnil =>
    cases hnil
    have hcloses := closesAfter_interleavedTokens
    rw [← hrest] at hcloses
    obtain ⟨z',hgives,hskip⟩ := ((skipGroup_exact (.bare .openParen ⟨1,0⟩) z).2.1 .closeParen rfl).1 7
      ⟨.identifier,none,[120],⟨2,8⟩⟩ hcloses (by rw [hrest]; rfl)
    rw [hrest] at hgives
    exact ⟨z,z',ha,hgives,hskip⟩

end SourceTags
