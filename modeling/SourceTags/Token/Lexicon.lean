import SourceTags.Text.Utf8
import SourceTags.Token.Keyword

/-! # Lexicons

A lexicon says which words of a source are keywords: it is a finite map from words, as bytes, to keywords.
The standard one has every keyword under its usual spelling.
-/
namespace SourceTags

structure Lexicon where
  entries : List (List UInt8 × Keyword)
  nodup : (entries.map Prod.fst).Nodup

namespace Lexicon

def empty : Lexicon := ⟨[],List.nodup_nil⟩

def size (l : Lexicon) : Nat := l.entries.length

def isEmpty (l : Lexicon) : Bool := l.entries.isEmpty

def find? (l : Lexicon) (word : List UInt8) : Option Keyword := l.entries.lookup word

/-- An earlier entry for the same word gives way. -/
def insert (l : Lexicon) (word : List UInt8) (k : Keyword) : Lexicon where
  entries := (word,k) :: l.entries.filter (·.1 != word)
  nodup := by
    simp only [List.map_cons,List.nodup_cons,List.mem_map,List.mem_filter,not_exists]
    exact ⟨fun e h => by simp [h.2] at h,l.nodup.sublist (List.filter_sublist.map _)⟩

def add (l : Lexicon) (spelling : String) (k : Keyword) : Lexicon :=
  l.insert (Utf8.encode spelling) k

def standard : Lexicon := Keyword.all.foldl (fun l k => l.add k.spelling k) empty

@[simp] theorem find?_empty (word : List UInt8) : empty.find? word = none := rfl

theorem find?_insert (l : Lexicon) (word other : List UInt8) (k : Keyword) :
    (l.insert word k).find? other = if other = word then some k else l.find? other := by
  unfold find? insert
  by_cases h : other = word
  · simp [h]
  · have hn (x : List UInt8) (hx : x = word) : (other == x) = false := by simp [hx,h]
    simp only [List.lookup_cons,hn word rfl,if_neg h]
    induction l.entries with
    | nil => rfl
    | cons e es ih =>
      obtain ⟨w,k'⟩ := e
      by_cases hw : w = word
      · simp [List.lookup_cons,hw,hn,ih]
      · simp [List.lookup_cons,hw,ih]

end Lexicon

end SourceTags
