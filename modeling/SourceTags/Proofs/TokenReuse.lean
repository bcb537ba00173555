import SourceTags.Proofs.ReadTokens

/-! # A token is read into again

A scanner may be given a token to write each reading into, whatever that token held before. It clears the kind, the
keyword and the text, sets the position with every byte that it looks at between tokens, and adds to the text byte by
byte; the kind comes last. Since it never looks at what it has not written itself, it gives what it would give into a
fresh token. So nothing of an earlier token is left over in a later one, however often the scan starts anew.
-/
namespace SourceTags
open ByteSource TokenStream

namespace AfterBlanks

variable {σ υ : Type} {f : σ → υ} {a : AfterBlanks σ} {b : UInt8} {y : υ}

def map (f : σ → υ) : AfterBlanks σ → AfterBlanks υ
  | terminator rest => terminator (f rest)
  | byte b rest => byte b (f rest)
  | endOfInput rest => endOfInput (f rest)

theorem map_eq_terminator : a.map f = terminator y ↔ ∃ rest, a = terminator rest ∧ f rest = y := by
  cases a <;> simp [map]

theorem map_eq_byte : a.map f = byte b y ↔ ∃ rest, a = byte b rest ∧ f rest = y := by
  cases a <;> simp [map]

theorem map_eq_endOfInput : a.map f = endOfInput y ↔ ∃ rest, a = endOfInput rest ∧ f rest = y := by
  cases a <;> simp [map]

end AfterBlanks

variable {σ : Type} [ByteSource σ]

/-- A token that is written to, and the source that it is read from. -/
structure Slot (σ : Type) where
  token : Token
  source : σ

namespace Slot

def clear (x : Slot σ) : Slot σ := { x with token := .bare .absent x.token.pos }

/-- The source has been read on, and the position is set to that of its last byte. -/
def place (x : Slot σ) (s : σ) : Slot σ := ⟨{ x.token with pos := lastPosition s },s⟩

def move (x : Slot σ) (s : σ) : Slot σ := { x with source := s }

def push (x : Slot σ) (b : UInt8) (s : σ) : Slot σ := ⟨{ x.token with text := x.token.text ++ [b] },s⟩

def look (lexicon : Lexicon) (x : Slot σ) : Slot σ :=
  { x with token := { x.token with keyword := lexicon.find? x.token.text } }

def done (x : Slot σ) (kind : TokenKind) : Lexeme σ := .token { x.token with kind } x.source

def afterBlanks (ends : Bool) (x : Slot σ) : AfterBlanks (Slot σ) :=
  match _h : next? x.source with
  | none => .endOfInput (x.place x.source)
  | some (b,rest) =>
    if ends && b == Byte.newline then .terminator (x.place rest)
    else if Byte.isBlank b then afterBlanks ends (x.place rest)
    else .byte b (x.place rest)
termination_by unread x.source
decreasing_by exact unread_next _h

def literal (delimiter : UInt8) (x : Slot σ) : Slot σ :=
  match _h : next? x.source with
  | none => x
  | some (b,rest) =>
    if b == Byte.backslash && delimiter != Byte.backtick then
      match _h' : next? rest with
      | none => x.move rest
      | some (escaped,after) => literal delimiter (x.push escaped after)
    else if b = delimiter then x.move rest
    else literal delimiter (x.push b rest)
termination_by unread x.source
decreasing_by
  · exact Nat.lt_trans (unread_next _h') (unread_next _h)
  · exact unread_next _h

def word (x : Slot σ) : Slot σ :=
  match _h : next? x.source with
  | none => x
  | some (b,rest) => if Byte.isWord b then word (x.push b rest) else x.move (putBack b rest)
termination_by unread x.source
decreasing_by exact unread_next _h

/-- Comments and dropped bytes leave the token as it is. -/
def lexeme (lexicon : Lexicon) (b : UInt8) (x : Slot σ) : Lexeme σ :=
  if b = Byte.slash then
    match next? x.source with
    | none => x.done .forwardSlash
    | some (c,rest) =>
      if c = Byte.slash then .trivia (afterLineComment rest)
      else if c = Byte.star then .trivia (afterBlockComment rest)
      else (x.move (putBack c rest)).done .forwardSlash
  else if b = Byte.less then
    match next? x.source with
    | none => .trivia x.source
    | some (c,rest) => if c = Byte.dash then (x.move rest).done .leftArrow else .trivia rest
  else if Byte.isDelimiter b then (x.literal b).done .string
  else
    match TokenKind.ofByte? b with
    | some kind => x.done kind
    | none =>
      let y := ((x.push b x.source).word).look lexicon
      y.done (if y.token.keyword.isSome then .keyword else .identifier)

theorem afterBlanks_eq (ends : Bool) (x : Slot σ) :
    x.afterBlanks ends = (SourceTags.afterBlanks ends x.source).map x.place := by
  fun_induction Slot.afterBlanks ends x with
  | case1 x h => rw [afterBlanks_none h]; rfl
  | case2 x b rest h ht => rw [afterBlanks_some h,if_pos ht]; rfl
  | case3 x b rest h ht hb ih => rw [afterBlanks_some h,if_neg ht,if_pos hb,ih]; rfl
  | case4 x b rest h ht hb => rw [afterBlanks_some h,if_neg ht,if_neg hb]; rfl

theorem literal_eq (delimiter : UInt8) (x : Slot σ) :
    x.literal delimiter =
      let run := readLiteral delimiter x.token.text.reverse x.source
      ⟨{ x.token with text := run.text },run.rest⟩ := by
  fun_induction Slot.literal delimiter x with
  | case1 x h => simp [readLiteral_none h]
  | case2 x b rest h hb h' => simp [readLiteral_some h,hb,h',move]
  | case3 x b rest h hb c after h' ih =>
    rw [ih]
    simp [readLiteral_some h,hb,h',push]
  | case4 x rest h hb => simp [readLiteral_some h,hb,move]
  | case5 x b rest h hb hd ih =>
    rw [ih]
    simp [readLiteral_some h,hb,hd,push]

theorem word_eq (x : Slot σ) :
    x.word =
      let run := readWord x.token.text.reverse x.source
      ⟨{ x.token with text := run.text },run.rest⟩ := by
  fun_induction Slot.word x with
  | case1 x h => simp [readWord_none h]
  | case2 x b rest h hb ih =>
    rw [ih]
    simp [readWord_some h,hb,push]
  | case3 x b rest h hb => simp [readWord_some h,hb,move]

theorem lexeme_trivia {lexicon : Lexicon} {b : UInt8} {x : Slot σ} {rest : σ} (h : x.lexeme lexicon b = .trivia rest) :
    SourceTags.lexeme lexicon b x.source = .trivia rest := by
  unfold Slot.lexeme done at h
  unfold SourceTags.lexeme lexemeAtSlash lexemeAtLess
  grind

theorem lexeme_eq (lexicon : Lexicon) (b : UInt8) {x : Slot σ} (hx : x.token = .bare .absent (lastPosition x.source)) :
    x.lexeme lexicon b = SourceTags.lexeme lexicon b x.source := by
  have hdone : ∀ kind s, (x.move s).done kind = .token (.bare kind (lastPosition x.source)) s := by
    intro kind s
    rw [done,move,hx]
    rfl
  have htext : x.token.text = [] := congrArg Token.text hx
  unfold Slot.lexeme SourceTags.lexeme lexemeAtSlash lexemeAtLess
  refine ite_congr rfl (fun _ => ?slash) fun _ => ite_congr rfl (fun _ => ?less) fun _ =>
    ite_congr rfl (fun _ => ?literal) fun _ => ?other
  case slash =>
    cases next? x.source with
    | none => exact hdone .forwardSlash x.source
    | some c => simp only [hdone]
  case less =>
    cases next? x.source with
    | none => rfl
    | some c => simp only [hdone]
  case literal =>
    rw [literal_eq,htext,done,hx]
    rfl
  case other =>
    cases TokenKind.ofByte? b with
    | some kind => exact hdone kind x.source
    | none =>
      have hword : (x.push b x.source).word =
          ⟨⟨.absent,none,(readWord [b] x.source).text,lastPosition x.source⟩,(readWord [b] x.source).rest⟩ := by
        rw [word_eq,push,hx]
        rfl
      dsimp only
      rw [hword,look,done,Token.ofWord]
      dsimp only
      cases lexicon.find? (readWord [b] x.source).text <;> rfl

theorem unread_scan {lexicon : Lexicon} {ends : Bool} {b : UInt8} {x y : Slot σ} {rest : σ}
    (hy : x.afterBlanks ends = .byte b y) (h : y.lexeme lexicon b = .trivia rest) : unread rest < unread x.source := by
  rw [afterBlanks_eq,AfterBlanks.map_eq_byte] at hy
  obtain ⟨s,hs,rfl⟩ := hy
  have hb := unread_afterBlanks ends x.source
  have hl := unread_lexeme lexicon b s
  rw [hs] at hb
  rw [show SourceTags.lexeme lexicon b s = .trivia rest from lexeme_trivia h] at hl
  exact Nat.lt_of_le_of_lt hl hb

/-- Reads the next token into the slot. The token is cleared before, and not again where the scan starts anew. -/
def scan (lexicon : Lexicon) (ends : Bool) (x : Slot σ) : Reading σ :=
  match _h : x.afterBlanks ends with
  | .endOfInput y => .endOfInput y.token y.source
  | .terminator y => .token { y.token with kind := .terminator } y.source
  | .byte b y =>
    match _h' : y.lexeme lexicon b with
    | .token t rest => .token t rest
    | .trivia rest => scan lexicon ends (y.move rest)
termination_by unread x.source
decreasing_by exact unread_scan _h _h'

theorem token_place {x : Slot σ} (hx : x.token = .bare .absent x.token.pos) (s : σ) :
    (x.place s).token = .bare .absent (lastPosition s) := by
  rw [place,hx]
  rfl

theorem scan_eq (lexicon : Lexicon) (ends : Bool) {x : Slot σ} (hx : x.token = .bare .absent x.token.pos) :
    x.scan lexicon ends = nextToken lexicon ends x.source := by
  fun_induction scan lexicon ends x with
  | case1 x y h =>
    rw [afterBlanks_eq,AfterBlanks.map_eq_endOfInput] at h
    obtain ⟨s,hs,rfl⟩ := h
    rw [nextToken_endOfInput hs,token_place hx s]
    rfl
  | case2 x y h =>
    rw [afterBlanks_eq,AfterBlanks.map_eq_terminator] at h
    obtain ⟨s,hs,rfl⟩ := h
    rw [nextToken_terminator hs,token_place hx s]
    rfl
  | case3 x b y h t rest hl =>
    rw [afterBlanks_eq,AfterBlanks.map_eq_byte] at h
    obtain ⟨s,hs,rfl⟩ := h
    rw [lexeme_eq lexicon b (token_place hx s)] at hl
    rw [nextToken_byte hs,show SourceTags.lexeme lexicon b s = .token t rest from hl]
  | case4 x b y h rest hl ih =>
    rw [afterBlanks_eq,AfterBlanks.map_eq_byte] at h
    obtain ⟨s,hs,rfl⟩ := h
    have hcleared := token_place hx s
    rw [lexeme_eq lexicon b hcleared] at hl
    rw [nextToken_byte hs,show SourceTags.lexeme lexicon b s = .trivia rest from hl]
    exact ih (by rw [move,hcleared]; rfl)

end Slot

namespace Scanner

/-- Reads the next token into one that has been used before. -/
def readInto (held : Token) (z : Scanner σ) : Reading (Scanner σ) :=
  match (Slot.mk held z.source).clear.scan z.lexicon z.previous.mayEndStatement with
  | .token t rest => .token t { z with source := rest, previous := t.kind }
  | .endOfInput left rest => .endOfInput left { z with source := rest }

/-- Whatever the token held, it is overwritten with what a scanner gives, and the scanner goes on in the same state. -/
theorem readInto_eq (held : Token) (z : Scanner σ) : z.readInto held = advance z := by
  rw [readInto,Slot.scan_eq _ _ rfl]
  rfl

theorem unread_readInto {held t : Token} {z z' : Scanner σ} (h : z.readInto held = .token t z') :
    unread z'.source < unread z.source := unread_advance ((readInto_eq held z).symm.trans h)

/-- The tokens that are read one after another. What the token for the next reading holds may depend on all that has
been read, the last token first: it may be the last one itself, or one of two that are used in turn. -/
def tokensInto (held : List Token → Token) (read : List Token) (z : Scanner σ) : List Token :=
  match _h : z.readInto (held read) with
  | .token t rest => t :: tokensInto held (t :: read) rest
  | .endOfInput _ _ => []
termination_by unread z.source
decreasing_by exact unread_readInto _h

theorem tokensInto_eq (held : List Token → Token) (read : List Token) (z : Scanner σ) :
    z.tokensInto held read = tokens z := by
  fun_induction tokensInto held read z with
  | case1 read z t rest h ih =>
    rw [readInto_eq] at h
    rw [tokens_token h,ih]
  | case2 read z left rest h =>
    rw [readInto_eq] at h
    rw [tokens_endOfInput h]

/-- A token that a scanner has read is coherent, and the scanner remembers its kind. If the input ends, the token is
left without a kind, a keyword and a text, and the scanner remembers the kind that it did. Neither what the token is
then nor where the scanner stands depends on what the token held before, and so a run has the same tokens, whichever
of them are read into again. -/
theorem readInto_coherent (z : Scanner σ) :
    (∀ held, z.readInto held = advance z ∧
      match z.readInto held with
      | .token t z' => t.Coherent z.lexicon ∧ z'.lexicon = z.lexicon ∧ z'.previous = t.kind
      | .endOfInput left z' =>
        left.kind = .absent ∧ left.keyword = none ∧ left.text = [] ∧
          z'.lexicon = z.lexicon ∧ z'.previous = z.previous) ∧
    ∀ held, z.tokensInto held [] = tokens z ∧ ∀ t ∈ z.tokensInto held [], t.Coherent z.lexicon := by
  constructor
  · intro held
    refine ⟨readInto_eq held z,?_⟩
    rw [readInto_eq]
    cases ha : advance z with
    | token t z' =>
      obtain ⟨hprintable,hstate⟩ := isPrintable_of_advance ha
      exact ⟨hprintable.coherent,hstate⟩
    | endOfInput left z' =>
      obtain ⟨hleft,hstate⟩ := left_of_advance ha
      rw [hleft]
      exact ⟨rfl,rfl,rfl,hstate⟩
  · intro held
    rw [tokensInto_eq]
    exact ⟨rfl,fun t ht => (isPrintable_of_mem_tokens ht).coherent⟩

end Scanner

end SourceTags
