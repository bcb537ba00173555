import Mathlib.Data.List.Basic
import SourceTags.Tag.Selection

/-! # What a string of letters selects

How far an edit has come can be told from the letters that it has read: the last sign among them says whether the next
letter adds or removes, and the last occurrence of a letter says whether its kind is in the set. A string is read like
its parts one after another, and it fails with the first letter in it that is no sign and names no kind.
-/
namespace SourceTags.Selection

def alphabet : List Char := ['f','l','t','+','-']

def isSign (c : Char) : Bool := c == '+' || c == '-'

/-- Whether a letter adds its kind after a string, which its last sign says. -/
def addsAfter (adding : Bool) (cs : List Char) : Bool := (cs.filter isSign).getLast?.elim adding (· == '+')

variable {s s' : Selection} {adding : Bool} {c : Char} {cs before after : List Char} {k : DeclarationKind}

theorem letter_mem_alphabet (k : DeclarationKind) : k.letter ∈ alphabet := by cases k <;> decide

theorem exists_letter (hc : c ∈ alphabet) (hs : isSign c = false) : ∃ k : DeclarationKind, k.letter = c := by
  simp only [alphabet,List.mem_cons,List.not_mem_nil,or_false] at hc
  rcases hc with rfl | rfl | rfl | rfl | rfl
  · exact ⟨.function,rfl⟩
  · exact ⟨.binding,rfl⟩
  · exact ⟨.typeAlias,rfl⟩
  · contradiction
  · contradiction

theorem addsAfter_cons (adding : Bool) (c : Char) (cs : List Char) :
    addsAfter adding (c :: cs) = addsAfter (if isSign c then c == '+' else adding) cs := by
  unfold addsAfter
  cases hc : isSign c with
  | false => rw [List.filter_cons_of_neg (by simp [hc]),if_neg Bool.false_ne_true]
  | true =>
    rw [List.filter_cons_of_pos hc,List.getLast?_cons,if_pos rfl]
    cases (cs.filter isSign).getLast? <;> rfl

theorem edit_sign (hc : isSign c = true) (s : Selection) (adding : Bool) (cs : List Char) :
    edit s adding (c :: cs) = edit s (c == '+') cs := by
  simp only [isSign,Bool.or_eq_true,beq_iff_eq] at hc
  rcases hc with rfl | rfl <;> rfl

theorem edit_letter (k : DeclarationKind) (s : Selection) (adding : Bool) (cs : List Char) :
    edit s adding (k.letter :: cs) = edit (s.set k adding) adding cs := by cases k <;> rfl

theorem edit_unknown (hc : c ∉ alphabet) (s : Selection) (adding : Bool) (cs : List Char) :
    edit s adding (c :: cs) = .error ⟨c⟩ := by
  have hnone : DeclarationKind.ofLetter? c = none := by
    cases hk : DeclarationKind.ofLetter? c with
    | none => rfl
    | some k => exact absurd (DeclarationKind.letter_of_ofLetter? hk ▸ letter_mem_alphabet k) hc
  rw [edit,hnone]
  · rintro rfl
    exact hc (by decide)
  · rintro rfl
    exact hc (by decide)

theorem edit_append (hcs : ∀ c ∈ before, c ∈ alphabet) (s : Selection) (adding : Bool) (after : List Char) :
    ∃ s', edit s adding before = .ok s' ∧
      edit s adding (before ++ after) = edit s' (addsAfter adding before) after := by
  induction before generalizing s adding with
  | nil => exact ⟨s,rfl,rfl⟩
  | cons c cs ih =>
    obtain ⟨hc,htail⟩ := List.forall_mem_cons.mp hcs
    rw [List.cons_append,addsAfter_cons]
    cases hs : isSign c with
    | true =>
      rw [edit_sign hs,edit_sign hs]
      exact ih htail s (c == '+')
    | false =>
      obtain ⟨k,rfl⟩ := exists_letter hc hs
      rw [edit_letter,edit_letter]
      exact ih htail (s.set k adding) adding

theorem contains_edit_of_not_mem (h : edit s adding cs = .ok s') (hk : k.letter ∉ cs) :
    s'.contains k = s.contains k := by
  induction cs generalizing s adding with
  | nil =>
    obtain rfl := Except.ok.inj h
    rfl
  | cons c cs ih =>
    rw [List.mem_cons,not_or] at hk
    obtain ⟨hne,hcs⟩ := hk
    by_cases hc : c ∈ alphabet
    · cases hs : isSign c with
      | true =>
        rw [edit_sign hs] at h
        exact ih h hcs
      | false =>
        obtain ⟨k',rfl⟩ := exists_letter hc hs
        rw [edit_letter] at h
        have hother : k ≠ k' := fun hkk => hne (hkk ▸ rfl)
        rw [ih h hcs,contains_set,if_neg hother]
    · rw [edit_unknown hc] at h
      contradiction

/-- The last occurrence of its letter decides about a kind, and does what the last sign before it says. -/
theorem contains_edit_last (hcs : ∀ c ∈ before, c ∈ alphabet) (hk : k.letter ∉ after)
    (h : edit s adding (before ++ k.letter :: after) = .ok s') : s'.contains k = addsAfter adding before := by
  obtain ⟨s₁,-,happend⟩ := edit_append hcs s adding (k.letter :: after)
  rw [happend,edit_letter] at h
  rw [contains_edit_of_not_mem h hk,contains_set,if_pos rfl]

theorem edit_eq_error_iff (s : Selection) (adding : Bool) (cs : List Char) (c : Char) :
    edit s adding cs = .error ⟨c⟩ ↔ cs.find? (· ∉ alphabet) = some c := by
  cases hfind : cs.find? (· ∉ alphabet) with
  | none =>
    have hall : ∀ c ∈ cs, c ∈ alphabet := by simpa using hfind
    obtain ⟨s',hs',-⟩ := edit_append hall s adding []
    rw [hs']
    simp
  | some c' =>
    obtain ⟨hc',before,after,rfl,hbefore⟩ := List.find?_eq_some_iff_append.mp hfind
    obtain ⟨s',-,happend⟩ := edit_append (by simpa using hbefore) s adding (c' :: after)
    rw [happend,edit_unknown (by simpa using hc')]
    simp

theorem startsWithSign_iff (cs : List Char) :
    startsWithSign cs = true ↔ cs.head? = some '+' ∨ cs.head? = some '-' := by
  unfold startsWithSign
  split
  · simp
  · simp
  · next hplus hminus =>
    cases cs with
    | nil => simp
    | cons c cs =>
      have hp : c ≠ '+' := fun h => hplus cs (h ▸ rfl)
      have hm : c ≠ '-' := fun h => hminus cs (h ▸ rfl)
      simp [hp,hm]

/-- A string fails just if a character in it is none of the letters and signs, and then with the first such. Otherwise
it makes a selection. A kind whose letter occurs is in it unless a minus is the nearest sign before the last occurrence,
and a kind whose letter does not occur is in it just if the string starts with a sign. -/
theorem parse_closedForm (letters : String) :
    (∀ c, parse letters = .error ⟨c⟩ ↔ letters.toList.find? (· ∉ ['f','l','t','+','-']) = some c) ∧
    ((∀ c ∈ letters.toList, c ∈ ['f','l','t','+','-']) → ∃ s, parse letters = .ok s ∧ ∀ k : DeclarationKind,
      (∀ before after, letters.toList = before ++ k.letter :: after → k.letter ∉ after →
        (s.contains k = true ↔ ∀ sign ∈ (before.filter isSign).getLast?, sign = '+')) ∧
      (k.letter ∉ letters.toList →
        (s.contains k = true ↔ letters.toList.head? = some '+' ∨ letters.toList.head? = some '-'))) := by
  constructor
  · intro c
    exact edit_eq_error_iff ..
  · intro hall
    obtain ⟨s,hs,-⟩ := edit_append hall (if startsWithSign letters.toList then all else empty) true []
    refine ⟨s,hs,fun k => ⟨?_,?_⟩⟩
    · intro before after hsplit hk
      rw [hsplit] at hs hall
      have hbefore : ∀ c ∈ before, c ∈ alphabet := fun c hc => hall c (List.mem_append_left _ hc)
      rw [contains_edit_last hbefore hk hs]
      unfold addsAfter
      cases (before.filter isSign).getLast? <;> simp
    · intro hk
      rw [contains_edit_of_not_mem hs hk,← startsWithSign_iff]
      cases startsWithSign letters.toList <;> simp

theorem parse_closedForm_sample :
    (∀ c ∈ "+l-lt+t-".toList, c ∈ ['f','l','t','+','-']) ∧
    parse "+l-lt+t-" = .ok ⟨true,false,true⟩ ∧ parse "+l?-x" = .error ⟨'?'⟩ := by
  have hall : ∀ c ∈ "+l-lt+t-".toList, c ∈ ['f','l','t','+','-'] := by simp
  obtain ⟨s,hs,hk⟩ := (parse_closedForm "+l-lt+t-").2 hall
  have hf : s.contains .function = true := ((hk .function).2 (by decide)).mpr (.inl rfl)
  have hl : s.contains .binding ≠ true := by
    rw [ne_eq,(hk .binding).1 ['+','l','-'] ['t','+','t','-'] rfl (by decide)]
    exact fun hplus => absurd (hplus '-' rfl) (by decide)
  have ht : s.contains .typeAlias = true := by
    rw [(hk .typeAlias).1 ['+','l','-','l','t','+'] ['-'] rfl (by decide)]
    intro sign hsign
    exact (Option.some.inj hsign).symm
  refine ⟨hall,?_,((parse_closedForm "+l?-x").1 '?').mpr (by decide)⟩
  rw [hs]
  congr
  apply ext_contains
  intro k
  cases k
  · exact hf
  · exact Bool.eq_false_iff.mpr hl
  · exact ht

end SourceTags.Selection
