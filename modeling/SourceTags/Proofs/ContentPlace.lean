import SourceTags.Proofs.Concatenation
import SourceTags.Proofs.Lockstep

/-! # Where a reader stands

However a reader has come to where it is, what it is like then is settled by two things: how many bytes of the content
have been given, and which byte has been taken back. All positions are read off the content; a byte that has been taken
back has that of the last byte given, whichever byte it is. So places in the content are a source of their own, and
the reader of a file, or the cursor over it, is at one place after another whatever is asked of it.
-/
namespace SourceTags
open ByteSource

/-- What can be asked of a source. -/
inductive Demand where
  | next
  | putBack (b : UInt8)
  | skipPast (target : UInt8)
  deriving DecidableEq

namespace Demand

variable {σ : Type} [ByteSource σ]

/-- A source that has nothing more to give stays as it is. -/
def after (s : σ) : Demand → σ
  | next => match next? s with
    | some (_,s') => s'
    | none => s
  | putBack b => ByteSource.putBack b s
  | skipPast target => ByteSource.skipPast target s

/-- What demands leave of a source that are made one after another. -/
def run (s : σ) (ds : List Demand) : σ := ds.foldl after s

end Demand

namespace Lockstep

variable {σ υ : Type} [ByteSource σ] [ByteSource υ] {P : Position → Position → Prop} {R : σ → υ → Prop}
  {s : σ} {u : υ}

theorem after (step : Lockstep P R) (h : R s u) (d : Demand) : R (d.after s) (d.after u) := by
  cases d with
  | putBack b => exact step.putBack b h
  | skipPast target => exact step.skipPast target h
  | next =>
    unfold Demand.after
    cases hn : next? s with
    | none =>
      rw [step.next_none h hn]
      exact h
    | some x =>
      obtain ⟨u',hu,hR⟩ := step.next_some h hn
      rw [hu]
      exact hR

theorem run (step : Lockstep P R) (h : R s u) (ds : List Demand) : R (Demand.run s ds) (Demand.run u ds) := by
  induction ds generalizing s u with
  | nil => exact h
  | cons d ds ih => exact ih (step.after h d)

end Lockstep

/-- How many bytes of the content of a file have been given, and the byte that has been taken back. -/
structure Place where
  file : SourceFile
  given : Nat
  held : Option UInt8
  given_le : given ≤ file.content.length

namespace Place

def start (f : SourceFile) : Place := ⟨f,0,none,Nat.zero_le _⟩

def rest (m : Place) : List UInt8 := m.file.content.drop m.given

/-- Position of the byte given last, and of the first byte where none has been given. -/
def here (m : Place) : Position := m.file.positionAt (m.given - 1)

def next? (m : Place) : Option (UInt8 × Place) :=
  match m.held with
  | some b => some (b,{ m with held := none })
  | none =>
    if h : m.given < m.file.content.length then some (m.file.content[m.given],⟨m.file,m.given + 1,none,h⟩) else none

def putBack (b : UInt8) (m : Place) : Place := { m with held := some b }

/-- The place after the first `target` that has not been given, or after the whole content. -/
def jump (target : UInt8) (m : Place) : Place where
  file := m.file
  given := min (m.given + (m.rest.takeWhile (· != target)).length + 1) m.file.content.length
  held := none
  given_le := Nat.min_le_right _ _

def skipPast (target : UInt8) (m : Place) : Place :=
  match m.held with
  | some b => if b = target then { m with held := none } else m.jump target
  | none => m.jump target

def unread (m : Place) : Nat := m.held.toList.length + m.rest.length

instance : ByteSource Place where
  next? := next?
  putBack := putBack
  skipPast := skipPast
  lastPosition := here
  unread := unread
  unread_next := by
    intro m m' b h
    unfold next? at h
    split at h
    · next hheld =>
      obtain ⟨-,rfl⟩ := Prod.mk.inj (Option.some.inj h)
      simp [unread,rest,hheld]
    · next hheld =>
      split at h
      · obtain ⟨-,rfl⟩ := Prod.mk.inj (Option.some.inj h)
        simp only [unread,rest,hheld,List.length_drop]
        omega
      · contradiction
  unread_putBack b m := by
    simp only [unread,rest,putBack,Option.toList_some,List.length_singleton]
    omega
  unread_skipPast target m := by
    have hjump : (m.jump target).unread ≤ m.rest.length := by
      simp only [jump,unread,rest,Option.toList_none,List.length_nil,List.length_drop]
      omega
    have hle : m.rest.length ≤ m.unread := Nat.le_add_left _ _
    unfold skipPast
    split
    · split
      · simp [unread,rest]
      · exact Nat.le_trans hjump hle
    · exact Nat.le_trans hjump hle

variable {m m' : Place} {b target : UInt8} {bytes : List UInt8}

theorem rest_cons (h : m.rest = b :: bytes) : ∃ hlt : m.given < m.file.content.length,
    m.file.content[m.given] = b ∧ m.file.content.drop (m.given + 1) = bytes := by
  have hlt : m.given < m.file.content.length := by
    have hlength := congrArg List.length h
    simp only [rest,List.length_drop,List.length_cons] at hlength
    omega
  rw [rest,List.drop_eq_getElem_cons hlt] at h
  exact ⟨hlt,List.cons.inj h⟩

theorem next_cons (hh : m.held = none) (h : m.rest = b :: bytes) :
    ∃ hlt : m.given < m.file.content.length, ByteSource.next? m = some (b,⟨m.file,m.given + 1,none,hlt⟩) ∧
      rest ⟨m.file,m.given + 1,none,hlt⟩ = bytes := by
  obtain ⟨hlt,hb,hbytes⟩ := rest_cons h
  refine ⟨hlt,?_,hbytes⟩
  change m.next? = _
  rw [next?,hh]
  dsimp only
  rw [dif_pos hlt,hb]

theorem next_nil (hh : m.held = none) (h : m.rest = []) : ByteSource.next? m = none := by
  have hge : m.file.content.length ≤ m.given := List.drop_eq_nil_iff.mp h
  change m.next? = _
  rw [next?,hh]
  dsimp only
  rw [dif_neg (Nat.not_lt.mpr hge)]

theorem file_next (h : m.next? = some (b,m')) : m'.file = m.file := by
  unfold next? at h
  split at h
  · obtain ⟨-,rfl⟩ := Prod.mk.inj (Option.some.inj h)
    rfl
  · split at h
    · obtain ⟨-,rfl⟩ := Prod.mk.inj (Option.some.inj h)
      rfl
    · contradiction

theorem readsThrough_jump (target : UInt8) (hh : m.held = none) : ReadsThrough target m (m.jump target) := by
  induction hr : m.rest generalizing m with
  | nil =>
    have hge : m.file.content.length ≤ m.given := List.drop_eq_nil_iff.mp hr
    have hjump : m.jump target = m := by
      obtain ⟨file,given,held,hle⟩ := m
      dsimp only at hh hge
      subst hh
      simp only [jump,mk.injEq,true_and,and_true]
      omega
    rw [hjump]
    exact .atEnd (next_nil hh hr)
  | cons b bytes ih =>
    obtain ⟨hlt,hn,hbytes⟩ := next_cons hh hr
    by_cases hb : b = target
    · have hjump : m.jump target = ⟨m.file,m.given + 1,none,hlt⟩ := by
        simp only [jump,hr,hb,List.takeWhile_cons,bne_self_eq_false,Bool.false_eq_true,if_false,List.length_nil,
          mk.injEq,true_and,and_true]
        omega
      rw [hjump]
      exact .found (hb ▸ hn)
    · have hjump : m.jump target = jump target ⟨m.file,m.given + 1,none,hlt⟩ := by
        simp only [jump,hr,hbytes,List.takeWhile_cons,bne_iff_ne.mpr hb,if_true,List.length_cons,mk.injEq,true_and,
          and_true]
        congr 1
        omega
      rw [hjump]
      exact .passed hn hb (ih rfl hbytes)

theorem readsThrough_skipPast (target : UInt8) (m : Place) : ReadsThrough target m (ByteSource.skipPast target m) := by
  change ReadsThrough target m (m.skipPast target)
  unfold skipPast
  cases hh : m.held with
  | none => exact readsThrough_jump target hh
  | some b =>
    have hn : ByteSource.next? m = some (b,{ m with held := none }) := by
      change m.next? = _
      rw [next?,hh]
    dsimp only
    split
    · next hb => exact .found (hb ▸ hn)
    · next hb => exact .passed hn hb (readsThrough_jump target rfl)

section View

variable {σ : Type} [ByteSource σ] {view : Place → σ}

theorem lockstep_view (f : SourceFile)
    (hnext : ∀ m, ByteSource.next? (view m) = m.next?.map fun x => (x.1,view x.2))
    (hputBack : ∀ b m, ByteSource.putBack b (view m) = view (m.putBack b))
    (hskipPast : ∀ b (s : σ), ReadsThrough b s (ByteSource.skipPast b s))
    (hposition : ∀ m, lastPosition (view m) = m.here) :
    Lockstep Eq fun (s : σ) (m : Place) => m.file = f ∧ s = view m := by
  have hnone : ∀ {s : σ} {m : Place}, (m.file = f ∧ s = view m) → ByteSource.next? s = none → m.next? = none := by
    rintro _ m ⟨-,rfl⟩ hn
    rwa [hnext,Option.map_eq_none_iff] at hn
  have hsome : ∀ {s s' : σ} {m : Place} {b}, (m.file = f ∧ s = view m) → ByteSource.next? s = some (b,s') →
      ∃ m', m.next? = some (b,m') ∧ m'.file = f ∧ s' = view m' := by
    rintro _ s' m b ⟨rfl,rfl⟩ hn
    rw [hnext,Option.map_eq_some_iff] at hn
    obtain ⟨⟨_,m'⟩,hm,hx⟩ := hn
    cases hx
    exact ⟨m',hm,file_next hm,rfl⟩
  constructor
  case next_none => exact hnone
  case next_some => exact hsome
  case putBack =>
    rintro _ m b ⟨rfl,rfl⟩
    exact ⟨rfl,hputBack b m⟩
  case skipPast =>
    intro s m b h
    obtain ⟨m',hm,hs⟩ := (hskipPast b s).lockstep hnone hsome h
    exact hm.unique (readsThrough_skipPast b m) ▸ hs
  case position =>
    rintro _ m ⟨-,rfl⟩
    exact hposition m

end View

def cursor (m : Place) : Cursor := ⟨m.held.map (·,m.here),m.rest,m.here,m.file.positionAt m.given⟩

/-- The reader at the place. The newline that is owed takes no place among the bytes of the file. -/
def reader (m : Place) : Reader where
  rest := m.file.bytes.drop (m.file.start + m.given)
  held := m.held.map (·,m.here)
  here := m.here
  ahead := ⟨(m.file.positionAt m.given).line,min (m.file.start + m.given) m.file.bytes.length⟩
  owesNewline := m.file.lacksNewline && decide (m.given < m.file.content.length)

theorem next?_cursor (m : Place) : m.cursor.next? = m.next?.map fun x => (x.1,x.2.cursor) := by
  obtain ⟨f,given,held,hle⟩ := m
  cases held with
  | some b => rfl
  | none =>
    unfold next?
    dsimp only
    split
    · next hlt =>
      have hdrop : f.content.drop given = f.content[given] :: f.content.drop (given + 1) :=
        List.drop_eq_getElem_cons hlt
      have hpos := SourceFile.positionAt_succ (List.getElem?_eq_getElem hlt)
      simp only [cursor,Cursor.next?,rest,hdrop,Option.map_none,Option.map_some,here,hpos,Nat.add_sub_cancel]
    · next hlt =>
      have hdrop : f.content.drop given = [] := List.drop_eq_nil_iff.mpr (Nat.le_of_not_lt hlt)
      simp only [cursor,Cursor.next?,rest,hdrop,Option.map_none]

end Place

namespace SourceFile

variable {f : SourceFile} {i : Nat}

theorem content_eq (f : SourceFile) : f.content = f.body ++ if f.lacksNewline then [Byte.newline] else [] := by
  unfold content
  split
  · rfl
  · exact (List.append_nil _).symm

theorem length_body (f : SourceFile) : f.body.length = f.bytes.length - f.start := List.length_drop ..

theorem length_content (f : SourceFile) : f.content.length = f.bytes.length - f.start + f.lacksNewline.toNat := by
  rw [content_eq,List.length_append,length_body]
  cases f.lacksNewline <;> rfl

theorem body_ne_nil (h : f.lacksNewline = true) : f.body ≠ [] := by
  rw [lacksNewline,Bool.and_eq_true,Bool.not_eq_true',List.isEmpty_eq_false_iff] at h
  exact h.1

theorem start_lt (h : f.lacksNewline = true) : f.start < f.bytes.length := by
  have hpos := List.length_pos_iff.mpr (body_ne_nil h)
  rw [length_body] at hpos
  omega

theorem getElem_content (h : i < f.content.length) (hb : f.start + i < f.bytes.length) :
    f.content[i] = f.bytes[f.start + i] := by
  have hbody : i < f.body.length := by
    rw [f.length_body]
    omega
  simp only [f.content_eq]
  rw [List.getElem_append_left hbody]
  exact List.getElem_drop

/-- The content goes on behind the bytes of the file with the newline that is owed, and with nothing else. -/
theorem getElem_content_owed (h : i < f.content.length) (hb : f.bytes.length ≤ f.start + i) :
    f.lacksNewline = true ∧ f.start + i = f.bytes.length ∧ f.content.length = i + 1 ∧ f.content[i] = Byte.newline := by
  have hlength := f.length_content
  cases hl : f.lacksNewline with
  | false =>
    rw [hl,Bool.toNat_false] at hlength
    omega
  | true =>
    have hstart := start_lt hl
    rw [hl,Bool.toNat_true] at hlength
    have hbody : f.body.length ≤ i := by
      rw [f.length_body]
      omega
    refine ⟨rfl,by omega,by omega,?_⟩
    simp only [f.content_eq,hl,if_true]
    rw [List.getElem_append_right hbody,List.getElem_singleton]

end SourceFile

namespace Place

theorem reader_start (f : SourceFile) : (start f).reader = f.reader := by
  have howes : (f.lacksNewline && decide (0 < f.content.length)) = f.reader.owesNewline := by
    rw [f.owesNewline_reader]
    cases hl : f.lacksNewline with
    | false => rfl
    | true =>
      have hlength := f.length_content
      rw [hl,Bool.toNat_true] at hlength
      simp only [Bool.true_and,decide_eq_true_eq]
      omega
  have hahead : min (f.start + 0) f.bytes.length = f.start := Nat.min_eq_left f.start_le
  change reader ⟨f,0,none,Nat.zero_le _⟩ = _
  simp only [reader,hahead,howes]
  rfl

theorem owesNewline_next {f : SourceFile} {given : Nat} (h : f.start + given < f.bytes.length) :
    (f.lacksNewline && decide (given + 1 < f.content.length)) = (f.lacksNewline && decide (given < f.content.length)) := by
  have hlength := f.length_content
  cases hl : f.lacksNewline with
  | false => rfl
  | true =>
    rw [hl,Bool.toNat_true] at hlength
    simp only [Bool.true_and,decide_eq_decide]
    omega

theorem reader_giveByte {f : SourceFile} {given : Nat} (hlt : given < f.content.length)
    (hb : f.start + given < f.bytes.length) (hle : given ≤ f.content.length) :
    Reader.giveByte f.content[given] (f.bytes.drop (f.start + given + 1)) (reader ⟨f,given,none,hle⟩) =
      reader ⟨f,given + 1,none,hlt⟩ := by
  have hpos := SourceFile.positionAt_succ (List.getElem?_eq_getElem hlt)
  have hahead : min (f.start + given) f.bytes.length = f.start + given := Nat.min_eq_left (Nat.le_of_lt hb)
  have hnext : min (f.start + given + 1) f.bytes.length = f.start + given + 1 := Nat.min_eq_left hb
  simp only [Reader.giveByte,reader,here,hahead,hnext,owesNewline_next hb,hpos,Position.past,Option.map_none,
    Nat.add_sub_cancel,← Nat.add_assoc]
  rfl

theorem reader_giveNewline {f : SourceFile} {given : Nat} (hlt : given < f.content.length)
    (hb : f.bytes.length ≤ f.start + given) (hle : given ≤ f.content.length) :
    (reader ⟨f,given,none,hle⟩).giveNewline = reader ⟨f,given + 1,none,hlt⟩ := by
  obtain ⟨hl,hgiven,hlast,hnewline⟩ := SourceFile.getElem_content_owed hlt hb
  have hpos := SourceFile.positionAt_succ (List.getElem?_eq_getElem hlt)
  have hahead : min (f.start + given) f.bytes.length = f.start + given := Nat.min_eq_left (Nat.le_of_eq hgiven)
  have hnext : min (f.start + given + 1) f.bytes.length = f.start + given := by omega
  have hdrop : f.bytes.drop (f.start + given) = f.bytes.drop (f.start + given + 1) := by
    rw [List.drop_eq_nil_of_le hb,List.drop_eq_nil_of_le (Nat.le_succ_of_le hb)]
  simp only [Reader.giveNewline,reader,here,hahead,hnext,hpos,hnewline,hlast,hdrop,Position.past,Option.map_none,
    Nat.add_sub_cancel,Nat.lt_irrefl,decide_false,Bool.and_false,← Nat.add_assoc]
  rfl

theorem next?_reader (m : Place) : m.reader.next? = m.next?.map fun x => (x.1,x.2.reader) := by
  obtain ⟨f,given,held,hle⟩ := m
  cases held with
  | some b => rfl
  | none =>
    unfold next?
    dsimp only
    by_cases hb : f.start + given < f.bytes.length
    · have hlt : given < f.content.length := by
        have hlength := f.length_content
        omega
      have hdrop : f.bytes.drop (f.start + given) = f.content[given] :: f.bytes.drop (f.start + given + 1) := by
        rw [List.drop_eq_getElem_cons hb,SourceFile.getElem_content hlt hb]
      rw [dif_pos hlt,Option.map_some,← reader_giveByte hlt hb hle]
      exact Reader.next_cons rfl hdrop
    · have hdrop : f.bytes.drop (f.start + given) = [] := List.drop_eq_nil_of_le (Nat.le_of_not_lt hb)
      refine (Reader.next_nil rfl hdrop).trans ?_
      by_cases hlt : given < f.content.length
      · have howes : (reader ⟨f,given,none,hle⟩).owesNewline = true := by
          obtain ⟨hl,-⟩ := SourceFile.getElem_content_owed hlt (Nat.le_of_not_lt hb)
          simp only [reader,hl,hlt,decide_true,Bool.and_self]
        rw [dif_pos hlt,if_pos howes,Option.map_some,reader_giveNewline hlt (Nat.le_of_not_lt hb) hle,
          (SourceFile.getElem_content_owed hlt (Nat.le_of_not_lt hb)).2.2.2]
      · have howes : ¬(reader ⟨f,given,none,hle⟩).owesNewline = true := by
          simp only [reader,hlt,decide_false,Bool.and_false,Bool.false_eq_true,not_false_eq_true]
        rw [dif_neg hlt,if_neg howes,Option.map_none]

theorem lockstep_reader (f : SourceFile) : Lockstep Eq fun (r : Reader) (m : Place) => m.file = f ∧ r = m.reader :=
  lockstep_view f next?_reader (fun _ _ => rfl) Reader.readsThrough_skipPast fun _ => rfl

theorem lockstep_cursor (f : SourceFile) : Lockstep Eq fun (c : Cursor) (m : Place) => m.file = f ∧ c = m.cursor :=
  lockstep_view f next?_cursor (fun _ _ => rfl) Cursor.readsThrough_skipPast fun _ => rfl

/-- Whatever has been asked of the reader of a file, it stands at a place of the file. -/
theorem run_reader (f : SourceFile) (ds : List Demand) :
    (Demand.run (start f) ds).file = f ∧ Demand.run f.reader ds = (Demand.run (start f) ds).reader :=
  (lockstep_reader f).run ⟨rfl,(reader_start f).symm⟩ ds

end Place

end SourceTags
