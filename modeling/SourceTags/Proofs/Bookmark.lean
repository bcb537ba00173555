import SourceTags.Proofs.Lockstep

/-! # A reader is a bookmark in the content

A bookmark is an index into the content of a file, the byte that was taken back last and the position of the
byte given last; where the byte at an index stands is read off the content. Whatever bytes are asked of a
reader and given back to it, it answers as the bookmark does, also when its end has been reached before. The
cursor over the content stands between the two.
-/
namespace SourceTags

/-- What can be asked: the next byte, or to take one back. -/
inductive Call where
  | next
  | putBack (b : UInt8)
  deriving DecidableEq

/-- What is seen after a call: the byte that was given, the current position, and whether the end is reached. -/
structure Answer where
  byte : Option UInt8
  position : Position
  atEnd : Bool
  deriving DecidableEq

/-- What a caller sees of something that gives bytes. -/
structure View (σ : Type) where
  next? : σ → Option (UInt8 × σ)
  putBack : UInt8 → σ → σ
  here : σ → Position
  atEnd : σ → Bool

namespace View

variable {σ υ : Type}

/-- Nothing changes when there is no next byte. -/
def call (v : View σ) (s : σ) : Call → Option UInt8 × σ
  | .next => match v.next? s with
    | some (b,s') => (some b,s')
    | none => (none,s)
  | .putBack b => (none,v.putBack b s)

def answer (v : View σ) (s : σ) (c : Call) : Answer :=
  ⟨(v.call s c).1,v.here (v.call s c).2,v.atEnd (v.call s c).2⟩

def answers (v : View σ) : σ → List Call → List Answer
  | _, [] => []
  | s, c :: calls => v.answer s c :: v.answers (v.call s c).2 calls

def after (v : View σ) : σ → List Call → σ
  | s, [] => s
  | s, c :: calls => v.after (v.call s c).2 calls

variable {v : View σ} {w : View υ}

theorem answers_append (s : σ) (calls more : List Call) :
    v.answers s (calls ++ more) = v.answers s calls ++ v.answers (v.after s calls) more := by
  induction calls generalizing s with
  | nil => rfl
  | cons c calls ih => exact congrArg _ (ih _)

theorem answers_replicate_next {s : σ} (h : v.next? s = none) (n : Nat) :
    v.answers s (List.replicate n .next) = List.replicate n ⟨none,v.here s,v.atEnd s⟩ := by
  have hcall : v.call s .next = (none,s) := by rw [call,h]
  induction n with
  | zero => rfl
  | succ n ih => rw [List.replicate_succ,List.replicate_succ,answers,answer,hcall,ih]

/-- Seen from outside, related states are the same, and stay related. -/
structure Agree (v : View σ) (w : View υ) (R : σ → υ → Prop) : Prop where
  next_none {s : σ} {u : υ} : R s u → v.next? s = none → w.next? u = none
  next_some {s s' : σ} {u : υ} {b : UInt8} : R s u → v.next? s = some (b,s') →
    ∃ u', w.next? u = some (b,u') ∧ R s' u'
  putBack {s : σ} {u : υ} (b : UInt8) : R s u → R (v.putBack b s) (w.putBack b u)
  here {s : σ} {u : υ} : R s u → v.here s = w.here u
  atEnd {s : σ} {u : υ} : R s u → v.atEnd s = w.atEnd u

variable {R : σ → υ → Prop} {s : σ} {u : υ}

theorem Agree.call (agree : Agree v w R) (h : R s u) (c : Call) :
    (v.call s c).1 = (w.call u c).1 ∧ R (v.call s c).2 (w.call u c).2 := by
  cases c with
  | putBack b => exact ⟨rfl,agree.putBack b h⟩
  | next =>
    unfold View.call
    cases hn : v.next? s with
    | none =>
      rw [agree.next_none h hn]
      exact ⟨rfl,h⟩
    | some x =>
      obtain ⟨b,s'⟩ := x
      obtain ⟨u',hu,hR⟩ := agree.next_some h hn
      rw [hu]
      exact ⟨rfl,hR⟩

theorem Agree.answers_eq (agree : Agree v w R) (h : R s u) (calls : List Call) :
    v.answers s calls = w.answers u calls := by
  induction calls generalizing s u with
  | nil => rfl
  | cons c calls ih =>
    obtain ⟨hbyte,hR⟩ := agree.call h c
    rw [answers,answers,answer,answer,hbyte,agree.here hR,agree.atEnd hR,ih hR]

end View

structure Bookmark where
  index : Nat
  held : Option (UInt8 × Position)
  here : Position
  deriving DecidableEq

namespace Bookmark

def start (f : SourceFile) : Bookmark := ⟨0,none,f.positionAt 0⟩

def next? (f : SourceFile) (m : Bookmark) : Option (UInt8 × Bookmark) :=
  match m.held with
  | some (b,p) => some (b,⟨m.index,none,p⟩)
  | none => f.content[m.index]?.map fun b => (b,⟨m.index + 1,none,f.positionAt m.index⟩)

def putBack (b : UInt8) (m : Bookmark) : Bookmark := ⟨m.index,some (b,m.here),m.here⟩

def view (f : SourceFile) : View Bookmark where
  next? := next? f
  putBack := putBack
  here := here
  atEnd m := (m.next? f).isNone

def cursor (f : SourceFile) (m : Bookmark) : Cursor :=
  ⟨m.held,f.content.drop m.index,m.here,f.positionAt m.index⟩

theorem cursor_start (f : SourceFile) : (start f).cursor f = f.cursor := rfl

theorem next?_cursor (f : SourceFile) (m : Bookmark) :
    (m.cursor f).next? = (m.next? f).map fun x => (x.1,x.2.cursor f) := by
  obtain ⟨index,held,here⟩ := m
  cases held with
  | some x => rfl
  | none =>
    cases hb : f.content[index]? with
    | none =>
      have hdrop : f.content.drop index = [] := List.drop_eq_nil_iff.mpr (List.getElem?_eq_none_iff.mp hb)
      simp [cursor,next?,Cursor.next?,hb,hdrop]
    | some b =>
      obtain ⟨hlt,hget⟩ := List.getElem?_eq_some_iff.mp hb
      have hdrop : f.content.drop index = b :: f.content.drop (index + 1) := by
        rw [List.drop_eq_getElem_cons hlt,hget]
      simp only [cursor,next?,Cursor.next?,hb,hdrop,SourceFile.positionAt_succ hb,Option.map_some]

end Bookmark

namespace Reader

def view : View Reader where
  next? := next?
  putBack := putBack
  here := here
  atEnd := isAtEnd

variable {f : SourceFile} {r r' : Reader} {m : Bookmark} {b : UInt8}

theorem Matches.bookmark_none (h : r.Matches (m.cursor f)) (hn : r.next? = none) : m.next? f = none := by
  have hc := h.next_none hn
  rwa [Bookmark.next?_cursor,Option.map_eq_none_iff] at hc

theorem Matches.bookmark_some (h : r.Matches (m.cursor f)) (hn : r.next? = some (b,r')) :
    ∃ m', m.next? f = some (b,m') ∧ r'.Matches (m'.cursor f) := by
  obtain ⟨c,hc,hm⟩ := h.next_some hn
  rw [Bookmark.next?_cursor,Option.map_eq_some_iff] at hc
  obtain ⟨⟨_,m'⟩,hm',hx⟩ := hc
  cases hx
  exact ⟨m',hm',hm⟩

theorem Matches.bookmark_atEnd (h : r.Matches (m.cursor f)) : r.isAtEnd = (m.next? f).isNone := by
  rw [Bool.eq_iff_iff,isAtEnd_iff,Option.isNone_iff_eq_none]
  constructor
  · exact h.bookmark_none
  · intro hm
    cases hn : r.next? with
    | none => rfl
    | some x =>
      obtain ⟨m',hm',-⟩ := h.bookmark_some hn
      rw [hm] at hm'
      contradiction

/-- A reader that matches the cursor at a bookmark is seen as the bookmark. -/
theorem agree_bookmark (f : SourceFile) :
    View.Agree view (Bookmark.view f) fun r m => r.Matches (m.cursor f) where
  next_none := Matches.bookmark_none
  next_some := Matches.bookmark_some
  putBack b h := h.putBack b
  here h := h.here.symm
  atEnd := Matches.bookmark_atEnd

/-- The reader of a file answers as the bookmark at its start does. It is at its end when it has no next byte,
and then gives none, and stays where it is, as often as it is asked. -/
theorem answers_bookmark (f : SourceFile) (calls : List Call) :
    view.answers f.reader calls = (Bookmark.view f).answers (.start f) calls ∧
    ((view.after f.reader calls).isAtEnd = true ↔ (view.after f.reader calls).next? = none) ∧
    ((view.after f.reader calls).isAtEnd = true → ∀ n,
      view.answers f.reader (calls ++ List.replicate n .next) =
        view.answers f.reader calls ++ List.replicate n ⟨none,(view.after f.reader calls).here,true⟩) := by
  have hstart := f.matches_reader
  rw [← Bookmark.cursor_start] at hstart
  refine ⟨(agree_bookmark f).answers_eq hstart calls,isAtEnd_iff _,?_⟩
  intro hend n
  have hnone : view.next? (view.after f.reader calls) = none := (isAtEnd_iff _).mp hend
  have hagain := View.answers_replicate_next hnone n
  rw [show view.atEnd (view.after f.reader calls) = true from hend] at hagain
  rw [View.answers_append,hagain]
  rfl

end Reader

end SourceTags
