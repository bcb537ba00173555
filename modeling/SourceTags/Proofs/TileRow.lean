import SourceTags.Proofs.Tiling

/-! # Rows of tiles one after another

The tokens of a row depend on what stands before it only through the place where it starts and whether a
line break is a terminator there. So rows are put together, and moved behind any other text.
-/
namespace SourceTags

theorem Position.pastAll_comm (p : Position) (as bs : List UInt8) :
    (p.pastAll as).pastAll bs = (p.pastAll bs).pastAll as := by
  simp only [pastAll,Position.mk.injEq]
  omega

/-- The token in a source that has more text before it. -/
def Token.behind (text : List UInt8) (t : Token) : Token := { t with pos := t.pos.pastAll text }

namespace Tile

variable {lexicon : Lexicon} {ends : Bool} {p : Position} {t : Tile} {tiles more : List Tile}

/-- Whether a line break right after the tiles is a terminator, if `ends` says so for the first of them. -/
def endsAfter (lexicon : Lexicon) : Bool → Position → List Tile → Bool
  | ends, _, [] => ends
  | ends, p, t :: rest =>
    match t.token? lexicon p with
    | some u => endsAfter lexicon u.kind.mayEndStatement (p.pastAll t.bytes) rest
    | none => endsAfter lexicon (ends && !t.breaksLine) (p.pastAll t.bytes) rest

theorem tokens_token {u : Token} (h : t.token? lexicon p = some u) :
    tokens lexicon ends p (t :: tiles) = u :: tokens lexicon u.kind.mayEndStatement (p.pastAll t.bytes) tiles := by
  rw [tokens,h]

theorem tokens_break (h : t.token? lexicon p = none) (hb : t.breaksLine = true) :
    tokens lexicon true p (t :: tiles) =
      .bare .terminator (p.pastAll t.bytes.dropLast) :: tokens lexicon false (p.pastAll t.bytes) tiles := by
  rw [tokens,h,hb]
  rfl

theorem tokens_trivia (h : t.token? lexicon p = none) (hb : (ends && t.breaksLine) = false) :
    tokens lexicon ends p (t :: tiles) = tokens lexicon ends (p.pastAll t.bytes) tiles := by
  rw [tokens,h,hb]
  rfl

theorem tokens_append :
    tokens lexicon ends p (tiles ++ more) =
      tokens lexicon ends p tiles ++ tokens lexicon (endsAfter lexicon ends p tiles) (p.pastAll (spell tiles)) more := by
  induction tiles generalizing ends p with
  | nil => simp [tokens,endsAfter]
  | cons t tiles ih =>
    rw [List.cons_append,spell_cons,Position.pastAll_append]
    cases h : t.token? lexicon p with
    | some u => rw [tokens_token h,tokens_token h,endsAfter,h,ih,List.cons_append]
    | none =>
      rw [endsAfter,h]
      cases hb : ends && t.breaksLine with
      | false =>
        have he : (ends && !t.breaksLine) = ends := by
          cases ends <;> simp_all
        rw [tokens_trivia h hb,tokens_trivia h hb,he,ih]
      | true =>
        obtain ⟨rfl,hbreak⟩ := Bool.and_eq_true_iff.mp hb
        rw [tokens_break h hbreak,tokens_break h hbreak,hbreak,ih,List.cons_append]
        rfl

theorem endsAfter_append :
    endsAfter lexicon ends p (tiles ++ more) =
      endsAfter lexicon (endsAfter lexicon ends p tiles) (p.pastAll (spell tiles)) more := by
  induction tiles generalizing ends p with
  | nil => simp [endsAfter]
  | cons t tiles ih =>
    rw [List.cons_append,spell_cons,Position.pastAll_append,endsAfter,endsAfter]
    split <;> exact ih

theorem endsAfter_break (h : t.token? lexicon (p.pastAll (spell tiles)) = none) (hb : t.breaksLine = true) :
    endsAfter lexicon ends p (tiles ++ [t]) = false := by
  rw [endsAfter_append,endsAfter,h,hb]
  simp [endsAfter]

theorem endsAfter_token {u : Token} (h : t.token? lexicon (p.pastAll (spell tiles)) = some u) :
    endsAfter lexicon ends p (tiles ++ [t]) = u.kind.mayEndStatement := by
  rw [endsAfter_append,endsAfter,h]
  rfl

theorem token?_behind (text : List UInt8) :
    t.token? lexicon (p.pastAll text) = (t.token? lexicon p).map (Token.behind text) := by
  cases t with
  | word first more =>
    simp only [token?,Token.ofWord,Option.map_some]
    split <;> rfl
  | _ => rfl

/-- Behind more text the tokens are the same, and only stand elsewhere. -/
theorem tokens_behind (text : List UInt8) :
    tokens lexicon ends (p.pastAll text) tiles = (tokens lexicon ends p tiles).map (Token.behind text) := by
  induction tiles generalizing ends p with
  | nil => rfl
  | cons t tiles ih =>
    rw [tokens,tokens,token?_behind,Position.pastAll_comm]
    cases h : t.token? lexicon p with
    | some u =>
      simp only [Option.map_some,List.map_cons]
      rw [ih]
      rfl
    | none =>
      simp only [Option.map_none]
      split
      · rw [ih,Position.pastAll_comm,List.map_cons]
        rfl
      · exact ih

theorem Fits.append {rest : List UInt8} (h : t.Fits rest) (hr : rest ≠ []) (more : List UInt8) : t.Fits (rest ++ more) := by
  have hhead : (rest ++ more).head? = rest.head? := by
    cases rest with
    | nil => exact absurd rfl hr
    | cons => rfl
  cases t with
  | blockComment text closed =>
    cases closed with
    | true => exact h
    | false => exact absurd h.2 hr
  | word first more' => exact ⟨h.1,h.2.1,by rw [hhead]; exact h.2.2⟩
  | literal delimiter body closed => exact ⟨h.1,h.2.1,fun hc => absurd (h.2.2 hc) hr⟩
  | slash =>
    unfold Fits
    rw [hhead]
    exact h
  | _ => exact h

theorem Tiled.last (h : Tiled (tiles ++ [t])) : t.Fits [] := by
  induction tiles with
  | nil => exact h.1
  | cons u tiles ih => exact ih h.2

theorem Tiled.append (h : Tiled (tiles ++ [t])) (ht : ∀ rest, t.Fits rest) (hm : Tiled more) :
    Tiled (tiles ++ [t] ++ more) := by
  induction tiles with
  | nil => exact ⟨ht _,hm⟩
  | cons u tiles ih =>
    have hu : u.Fits (spell (tiles ++ [t])) := h.1
    have hne : spell (tiles ++ [t]) ≠ [] := by
      intro he
      rw [spell_eq_nil] at he
      simp at he
    have hfit := hu.append hne (spell more)
    rw [← spell_append] at hfit
    exact ⟨hfit,ih h.2⟩

theorem pos_of_mem_tokens {u : Token} (hu : u ∈ tokens lexicon ends p tiles) : ∃ text, u.pos = p.pastAll text := by
  induction tiles generalizing ends p with
  | nil => contradiction
  | cons t tiles ih =>
    have hlater : ∀ {ends}, u ∈ tokens lexicon ends (p.pastAll t.bytes) tiles → ∃ text, u.pos = p.pastAll text := by
      intro ends hu
      obtain ⟨text,ht⟩ := ih hu
      exact ⟨t.bytes ++ text,ht.trans (Position.pastAll_append ..).symm⟩
    rw [tokens] at hu
    split at hu
    · next v hv =>
      rcases List.mem_cons.mp hu with rfl | hu
      · exact ⟨[],(pos_of_token? hv).trans p.pastAll_nil.symm⟩
      · exact hlater hu
    · split at hu
      · rcases List.mem_cons.mp hu with rfl | hu
        · exact ⟨t.bytes.dropLast,rfl⟩
        · exact hlater hu
      · exact hlater hu

/-- Tokens come in the order of their places, terminators too, and lines never go back. -/
theorem tokens_ordered :
    (tokens lexicon ends p tiles).Pairwise fun u v => u.pos.offset < v.pos.offset ∧ u.pos.line ≤ v.pos.line := by
  induction tiles generalizing ends p with
  | nil => exact .nil
  | cons t tiles ih =>
    have hlen : 0 < t.bytes.length := List.length_pos_iff.mpr t.bytes_ne_nil
    have hcount : t.bytes.dropLast.count Byte.newline ≤ t.bytes.count Byte.newline :=
      (List.dropLast_sublist _).count_le _
    rw [tokens]
    split
    · next v hv =>
      refine .cons ?_ ih
      intro w hw
      obtain ⟨text,ht⟩ := pos_of_mem_tokens hw
      rw [pos_of_token? hv,ht]
      simp only [Position.pastAll]
      omega
    · split
      · refine .cons ?_ ih
        intro w hw
        obtain ⟨text,ht⟩ := pos_of_mem_tokens hw
        rw [ht]
        simp only [Position.pastAll,Token.bare,List.length_dropLast]
        omega
      · exact ih

theorem tokens_sorted : (tokens lexicon ends p tiles).Pairwise fun u v => u.pos.offset < v.pos.offset :=
  tokens_ordered.imp And.left

theorem scanned_tokens : Scanned (tokens lexicon ends p tiles) := by
  intro u hu hk
  induction tiles generalizing ends p with
  | nil => contradiction
  | cons t tiles ih =>
    rw [tokens] at hu
    split at hu
    · next v hv =>
      rcases List.mem_cons.mp hu with rfl | hu
      · cases t <;> try contradiction
        all_goals obtain rfl := Option.some.inj hv
        case word first more =>
          unfold Token.ofWord at hk ⊢
          split at hk
          · exact absurd rfl hk
          · simp_all
        all_goals rfl
      · exact ih hu
    · split at hu
      · rcases List.mem_cons.mp hu with rfl | hu
        · rfl
        · exact ih hu
      · exact ih hu

end Tile

theorem SourceFile.scanned_tokens (lexicon : Lexicon) (f : SourceFile) : Scanned (f.tokens lexicon) := by
  obtain ⟨tiles,ht,hf⟩ := exists_tiles f.endsLine_content
  rw [tokens_tiles ht hf]
  exact Tile.scanned_tokens

end SourceTags
