import SourceTags.Declaration.Kind

/-! # Selections of kinds

A set of kinds is written as a string of letters. It holds the kinds listed, or, where the string begins
with a sign, all kinds as the string edits them. A sign says whether the letters after it add or remove.
-/
namespace SourceTags

structure Selection where
  functions : Bool
  bindings : Bool
  types : Bool
  deriving DecidableEq

/-- The first letter of a string that is no sign and names no kind. -/
structure UnknownLetter where
  letter : Char
  deriving DecidableEq

def UnknownLetter.message (e : UnknownLetter) : String :=
  "unknown tag kind `" ++ String.singleton e.letter ++ "` (expected one of f, l, t)"

namespace Selection

def empty : Selection := ⟨false,false,false⟩

def all : Selection := ⟨true,true,true⟩

def contains (s : Selection) : DeclarationKind → Bool
  | .function => s.functions
  | .binding => s.bindings
  | .typeAlias => s.types

def set (s : Selection) (k : DeclarationKind) (present : Bool) : Selection :=
  match k with
  | .function => { s with functions := present }
  | .binding => { s with bindings := present }
  | .typeAlias => { s with types := present }

def singleton (k : DeclarationKind) : Selection := empty.set k true

def toList (s : Selection) : List DeclarationKind := DeclarationKind.all.filter s.contains

def letters (s : Selection) : String := String.ofList (s.toList.map DeclarationKind.letter)

/-- The set as a number, one bit for each kind. -/
def bits (s : Selection) : Nat := s.functions.toNat + 2 * s.bindings.toNat + 4 * s.types.toNat

@[simp] theorem contains_empty (k : DeclarationKind) : empty.contains k = false := by cases k <;> rfl

@[simp] theorem contains_all (k : DeclarationKind) : all.contains k = true := by cases k <;> rfl

theorem contains_set (s : Selection) (k k' : DeclarationKind) (present : Bool) :
    (s.set k present).contains k' = if k' = k then present else s.contains k' := by
  cases k <;> cases k' <;> rfl

theorem ext_contains {s s' : Selection} (h : ∀ k, s.contains k = s'.contains k) : s = s' := by
  cases s
  cases s'
  exact congr (congr (congrArg _ (h .function)) (h .binding)) (h .typeAlias)

/-- Edits a set by the letters of a string; `adding` is what the last sign said. -/
def edit (s : Selection) (adding : Bool) : List Char → Except UnknownLetter Selection
  | [] => .ok s
  | '+' :: rest => edit s true rest
  | '-' :: rest => edit s false rest
  | c :: rest =>
    match DeclarationKind.ofLetter? c with
    | some k => edit (s.set k adding) adding rest
    | none => .error ⟨c⟩

def startsWithSign : List Char → Bool
  | '+' :: _ | '-' :: _ => true
  | _ => false

def parse (letters : String) : Except UnknownLetter Selection :=
  let cs := letters.toList
  edit (if startsWithSign cs then all else empty) true cs

end Selection

end SourceTags
