import Mathlib.Data.List.Forall2
import SourceTags.Proofs.Simulation
import SourceTags.Source.File

/-! # Streams as lists of tokens

A list of tokens is itself a stream, and every stream goes like the list of the tokens it gives until its
input ends. So a pass over a source reports what a pass over the list of the source's tokens reports.
-/
namespace SourceTags
open TokenStream

instance : TokenStream (List Token) where
  advance
    | [] => .endOfInput .fresh []
    | t :: rest => .token t rest
  remaining := List.length
  remaining_advance := by
    intro s s' t h
    cases s with
    | nil => contradiction
    | cons u rest =>
      obtain ⟨-,rfl⟩ := Reading.token.inj h
      exact Nat.lt_succ_self _

@[simp] theorem advance_nil : advance ([] : List Token) = .endOfInput .fresh [] := rfl

@[simp] theorem advance_cons (t : Token) (rest : List Token) : advance (t :: rest) = .token t rest := rfl

theorem eq_cons_of_advance {s rest : List Token} {t : Token} (h : advance s = .token t rest) : s = t :: rest := by
  cases s with
  | nil => contradiction
  | cons u s =>
    obtain ⟨rfl,rfl⟩ := Reading.token.inj h
    rfl

variable {τ : Type} [TokenStream τ]

/-- The tokens that a stream gives until its input ends. -/
def TokenStream.tokens (s : τ) : List Token :=
  match _h : advance s with
  | .token t rest => t :: tokens rest
  | .endOfInput _ _ => []
termination_by remaining s
decreasing_by exact remaining_advance _h

theorem tokens_token {s rest : τ} {t : Token} (h : advance s = .token t rest) :
    tokens s = t :: tokens rest := by
  rw [tokens]
  split
  · next h' =>
    obtain ⟨rfl,rfl⟩ := Reading.token.inj (h.symm.trans h')
    rfl
  · simp_all

theorem tokens_endOfInput {s rest : τ} {left : Token} (h : advance s = .endOfInput left rest) :
    tokens s = [] := by
  rw [tokens]
  split <;> simp_all

theorem tokens_congr {s s' : τ} (h : advance s = advance s') : tokens s = tokens s' := by
  cases hs : advance s with
  | token t rest => exact (tokens_token hs).trans (tokens_token (h.symm.trans hs)).symm
  | endOfInput left rest => exact (tokens_endOfInput hs).trans (tokens_endOfInput (h.symm.trans hs)).symm

theorem simulation_tokens : Simulation Eq (fun (s : τ) (ts : List Token) => tokens s = ts) True where
  kind h := congrArg _ h
  keyword h := congrArg _ h
  advance := by
    rintro s _ rfl
    cases hs : advance s with
    | token t rest =>
      rw [tokens_token hs]
      exact ⟨rfl,rfl⟩
    | endOfInput left rest =>
      rw [tokens_endOfInput hs]
      exact fun _ => trivial

/-- Streams that go alike and end together give related tokens, one for one. -/
theorem Simulation.forall₂_tokens {υ : Type} [TokenStream υ] {T : Token → Token → Prop} {R : τ → υ → Prop}
    (sim : Simulation T R True) {s : τ} {s' : υ} (h : R s s') : List.Forall₂ T (tokens s) (tokens s') := by
  rcases (sim.advance h).cases with ⟨t,r,t',r',hr,hr',ht,hrest⟩ | ⟨_,_,_,_,hr,hr'⟩ | ⟨_,_,_,hnot⟩
  · have := remaining_advance hr
    rw [tokens_token hr,tokens_token hr']
    exact .cons ht (forall₂_tokens sim hrest)
  · rw [tokens_endOfInput hr,tokens_endOfInput hr']
    exact .nil
  · exact absurd trivial hnot
termination_by remaining s

def Pass.SameReports {υ : Type} (p : Pass τ) (q : Pass υ) : Prop :=
  p.settings = q.settings ∧ p.tags = q.tags ∧ p.count = q.count

omit [TokenStream τ] in
theorem kept_sameReports {υ : Type} :
    Kept Eq (Pass.SameReports : Pass τ → Pass υ → Prop) where
  withInput _ _ h := h
  report := by
    rintro p q t _ kind rfl ⟨hs,ht,hc⟩
    exact ⟨hs,by simp only [Pass.report,hs,ht],by simp only [Pass.report,hs,hc]⟩

theorem Pass.settings_declarations (p : Pass τ) : p.declarations.2.settings = p.settings := by
  have kept : Kept Eq (fun (q : Pass τ) (_ : Pass (List Token)) => q.settings = p.settings) :=
    ⟨fun _ _ h => h,fun _ _ h => h⟩
  exact simulation_tokens.declarations kept (q := ⟨tokens p.input,p.settings,p.tags,p.count⟩) rfl rfl

/-- Adds the tags of a list of tokens to the ones given, and counts those that it adds. -/
def tagTokens (settings : TagSettings) (tags : Array Tag) (ts : List Token) : Array Tag × Nat :=
  let p := (Pass.start settings tags ts).declarations.2
  (p.tags,p.count)

/-- Tokens as a scanner gives them: only a keyword says which keyword it is. -/
def Scanned (ts : List Token) : Prop := ∀ t ∈ ts, t.kind ≠ .keyword → t.keyword = none

theorem Scanned.of_cons {t : Token} {ts : List Token} (h : Scanned (t :: ts)) : Scanned ts :=
  fun u hu => h u (List.mem_cons_of_mem t hu)

theorem Scanned.of_append {ts more : List Token} (h : Scanned (ts ++ more)) : Scanned more :=
  fun u hu => h u (List.mem_append_right ts hu)

/-- The tokens that the reader of a file gives. -/
def SourceFile.tokens (lexicon : Lexicon) (f : SourceFile) : List Token :=
  TokenStream.tokens (Scanner.ofSource f.reader lexicon)

theorem SourceFile.tokens_reader (f : SourceFile) (lexicon : Lexicon) :
    TokenStream.tokens (Scanner.ofSource f.reader lexicon) = f.tokens lexicon := rfl

/-- A pass over a source reports what a pass over its tokens alone reports. -/
theorem tagSource_eq_tokens {σ : Type} [ByteSource σ] (settings : TagSettings) (lexicon : Lexicon)
    (tags : Array Tag) (source : σ) :
    tagSource settings lexicon tags source =
      tagTokens settings tags (TokenStream.tokens (Scanner.ofSource source lexicon)) := by
  let p := Pass.start settings tags (Scanner.ofSource source lexicon)
  let q := Pass.start settings tags (TokenStream.tokens (Scanner.ofSource source lexicon))
  have h : Pass.SameReports p.declarations.2 q.declarations.2 :=
    simulation_tokens.declarations kept_sameReports rfl ⟨rfl,rfl,rfl⟩
  exact Prod.ext h.2.1 h.2.2

theorem tagSource_eq_tagTokens (settings : TagSettings) (lexicon : Lexicon) (tags : Array Tag)
    (f : SourceFile) : tagSource settings lexicon tags f.reader = tagTokens settings tags (f.tokens lexicon) :=
  tagSource_eq_tokens ..

end SourceTags
