import SourceTags.Proofs.WordNames
import SourceTags.Tag.Line

/-! # Tag files are read back

A tag file is split into lines, a line into fields at its tabs, and the mark is taken off the third field. That gives
back the name, the file, the line number and the kind of each tag if no name and no file has a tab or a newline. The
other fields have none: a number is written with digits alone. Marks, quotes and digits in names and files do no harm,
for only tabs part fields. Names of functions, and all names that are words, are such names.
-/
namespace SourceTags
open TokenStream

/-- What a line of a tag file says. -/
structure Entry where
  name : String
  file : String
  line : ℕ
  kind : DeclarationKind
  deriving DecidableEq

namespace Entry

def mark : List Char := [';','"']

def number? (digits : List Char) : Option ℕ :=
  if digits ≠ [] ∧ digits.all Char.isDigit then some (Nat.ofDigitChars 10 digits 0) else none

theorem number?_toDigits (n : ℕ) : number? (Nat.toDigits 10 n) = some n := by
  have hdigits : (Nat.toDigits 10 n).all Char.isDigit = true :=
    List.all_eq_true.mpr fun _ hc => Nat.isDigit_of_mem_toDigits (by decide) (Nat.le_refl 10) hc
  rw [number?,if_pos ⟨Nat.toDigits_ne_nil,hdigits⟩,Nat.ofDigitChars_ten_toDigits]

def address? (field : List Char) : Option ℕ := (field.dropSuffix? mark).bind number?

theorem address?_toDigits (n : ℕ) : address? (Nat.toDigits 10 n ++ mark) = some n := by
  have hdigits : (Nat.toDigits 10 n ++ mark).dropSuffix? mark = some (Nat.toDigits 10 n) :=
    List.dropSuffix?_eq_some_iff.mpr ⟨mark,rfl,BEq.rfl⟩
  rw [address?,hdigits,Option.bind_some,number?_toDigits]

def kind? : List Char → Option DeclarationKind
  | [c] => DeclarationKind.ofLetter? c
  | _ => none

def ofFields? : List (List Char) → Option Entry
  | [name,file,address,letter] => do
    let line ← address? address
    let kind ← kind? letter
    return ⟨String.ofList name,String.ofList file,line,kind⟩
  | _ => none

def ofLine? (line : List Char) : Option Entry := ofFields? (line.splitOn '\t')

end Entry

/-- What stands before each newline, and what stands after the last one if anything does. -/
def linesOf (text : String) : List (List Char) :=
  let pieces := text.toList.splitOn '\n'
  if pieces.getLast? = some [] then pieces.dropLast else pieces

namespace Tag

def entry (file : String) (tag : Tag) : Entry := ⟨tag.name,file,tag.pos.line,tag.kind⟩

def body (file : String) (tag : Tag) : List Char :=
  tag.name.toList ++ '\t' ::
    (file.toList ++ '\t' :: (Nat.toDigits 10 tag.pos.line ++ Entry.mark ++ ['\t',tag.kind.letter]))

variable {file : String} {tag : Tag}

theorem toList_line (file : String) (tag : Tag) : (tag.line file).toList = tag.body file ++ ['\n'] := by
  simp [line,body,Entry.mark]

theorem toList_lines (file : String) (tags : List Tag) :
    (lines file tags).toList = (tags.map (body file)).flatMap (· ++ ['\n']) := by
  simp [lines,String.toList_join,List.flatMap_map,toList_line]

theorem not_mem_address {c : Char} (hdigit : c.isDigit = false) (hmark : c ∉ Entry.mark) (n : ℕ) :
    c ∉ Nat.toDigits 10 n ++ Entry.mark := by
  rw [List.mem_append,not_or]
  refine ⟨?_,hmark⟩
  intro hmem
  rw [Nat.isDigit_of_mem_toDigits (by decide) (Nat.le_refl 10) hmem] at hdigit
  contradiction

theorem not_mem_body (hfile : IsField file) (hname : IsField tag.name) : '\n' ∉ tag.body file := by
  have haddress := not_mem_address (c := '\n') rfl (by decide) tag.pos.line
  have hletter : '\n' ≠ tag.kind.letter := by cases tag.kind <;> decide
  rw [body]
  simp only [List.mem_append,List.mem_cons,not_or] at haddress ⊢
  exact ⟨hname.2,by decide,hfile.2,by decide,haddress,by decide,hletter,by simp⟩

theorem splitOn_body (hfile : IsField file) (hname : IsField tag.name) :
    (tag.body file).splitOn '\t' =
      [tag.name.toList,file.toList,Nat.toDigits 10 tag.pos.line ++ Entry.mark,[tag.kind.letter]] := by
  have haddress := not_mem_address (c := '\t') rfl (by decide) tag.pos.line
  have hletter : '\t' ∉ [tag.kind.letter] := by cases tag.kind <;> decide
  rw [body,List.splitOn_append_cons_self_of_not_mem hname.1,List.splitOn_append_cons_self_of_not_mem hfile.1,
    List.splitOn_append_cons_self_of_not_mem haddress,List.splitOn_eq_singleton hletter]

theorem ofLine?_body (hfile : IsField file) (hname : IsField tag.name) :
    Entry.ofLine? (tag.body file) = some (tag.entry file) := by
  rw [Entry.ofLine?,splitOn_body hfile hname]
  simp [Entry.ofFields?,Entry.address?_toDigits,Entry.kind?,DeclarationKind.ofLetter?_letter,entry]

/-- Lines without newlines, with one after each, are split into the lines and what stands after the last newline. -/
theorem splitOn_lines {lines : List (List Char)} (h : ∀ line ∈ lines, '\n' ∉ line) :
    (lines.flatMap (· ++ ['\n'])).splitOn '\n' = lines ++ [[]] := by
  induction lines with
  | nil => rfl
  | cons line lines ih =>
    obtain ⟨hline,hlines⟩ := List.forall_mem_cons.mp h
    rw [List.flatMap_cons,List.append_assoc,List.singleton_append,List.splitOn_append_cons_self_of_not_mem hline,
      ih hlines,List.cons_append]

theorem linesOf_lines (hfile : IsField file) {tags : List Tag} (hnames : ∀ tag ∈ tags, IsField tag.name) :
    linesOf (lines file tags) = tags.map (body file) := by
  have hbodies : ∀ line ∈ tags.map (body file), '\n' ∉ line := by
    intro line hline
    obtain ⟨tag,htag,rfl⟩ := List.mem_map.mp hline
    exact not_mem_body hfile (hnames tag htag)
  rw [linesOf,toList_lines,splitOn_lines hbodies]
  simp

theorem read_lines (hfile : IsField file) {tags : List Tag} (hnames : ∀ tag ∈ tags, IsField tag.name) :
    (linesOf (lines file tags)).map Entry.ofLine? = tags.map fun tag => some (tag.entry file) := by
  rw [linesOf_lines hfile hnames,List.map_map]
  exact List.map_congr_left fun tag htag => ofLine?_body hfile (hnames tag htag)

end Tag

/-- If no name and no file has a tab or a newline, a tag file has one line for each tag, in order, and each line is
read back as the name, the file, the line number and the kind of its tag. So lists of tags that differ in more than
offsets are written differently. Whatever source a pass reads, if the scope has no tab and no newline, neither has a
name that is a word, with the scope before it or not. The name of a function is one. -/
theorem tagLines_readBack :
    (∀ file tags, IsField file → (∀ tag ∈ tags, IsField tag.name) →
      (linesOf (Tag.lines file tags)).map Entry.ofLine? = tags.map fun tag => some (tag.entry file)) ∧
    (∀ file tags file' tags', IsField file → (∀ tag ∈ tags, IsField tag.name) →
      IsField file' → (∀ tag ∈ tags', IsField tag.name) →
      Tag.lines file tags = Tag.lines file' tags' → tags.map (Tag.entry file) = tags'.map (Tag.entry file')) ∧
    ∀ {σ : Type} [ByteSource σ] (settings : TagSettings) (lexicon : Lexicon) (given : Array Tag) (source : σ),
      (∀ scope ∈ settings.scope, IsField scope) →
      ∃ names : List (DeclarationKind × Token),
        (tagSource settings lexicon given source).1 = given ++ settings.tagsOf names ∧
        (names.map Prod.snd).Sublist (tokens (Scanner.ofSource source lexicon)) ∧
        (∀ x ∈ names, x.2.kind = .identifier ∨ x.2.kind = .keyword →
          ∀ tag ∈ settings.withQualified (.ofToken x.1 x.2), IsField tag.name) ∧
        (∀ x ∈ names, x.1 = .function → x.2.kind = .identifier) ∧
        ∀ tag ∈ settings.tagsOf names, tag.kind = .function → IsField tag.name := by
  refine ⟨fun _ _ hfile hnames => Tag.read_lines hfile hnames,?_,?_⟩
  · intro file tags file' tags' hfile hnames hfile' hnames' heq
    have hread := Tag.read_lines hfile hnames
    rw [heq,Tag.read_lines hfile' hnames'] at hread
    have hsome : Function.Injective (List.map (some : Entry → Option Entry)) :=
      List.map_injective_iff.mpr fun _ _ => Option.some.inj
    apply hsome
    rw [List.map_map,List.map_map]
    exact hread.symm
  · intro σ _ settings lexicon given source hscope
    obtain ⟨names,htags,hsub,hnames⟩ := exists_names settings lexicon given source
    have hwords : ∀ x ∈ names, x.2.kind = .identifier ∨ x.2.kind = .keyword →
        ∀ tag ∈ settings.withQualified (.ofToken x.1 x.2), IsField tag.name := by
      intro x hx hk
      have hmem := hsub.subset (List.mem_map_of_mem hx)
      exact TagSettings.isField_withQualified hscope (isField_name (isWordText_of_mem_tokens hmem hk))
    have hfunctions : ∀ x ∈ names, x.1 = .function → x.2.kind = .identifier := fun x hx => (hnames x hx).2
    refine ⟨names,htags,hsub,hwords,hfunctions,?_⟩
    intro tag htag hkind
    obtain ⟨x,hx,htag⟩ := List.mem_flatMap.mp htag
    have hfunction : x.1 = .function := (TagSettings.kind_withQualified htag).symm.trans hkind
    exact hwords x hx (.inl (hfunctions x hx hfunction)) tag htag

def entrySample : List Tag :=
  [⟨"fn;\"7",.function,⟨120,4⟩⟩,⟨"",.binding,⟨0,0⟩⟩,⟨"ünt 1;\"",.typeAlias,⟨9,99⟩⟩]

theorem tagLines_readBack_sample :
    IsField "a b;\"3.x" ∧ (∀ tag ∈ entrySample, IsField tag.name) ∧
    (linesOf (Tag.lines "a b;\"3.x" entrySample)).map Entry.ofLine? =
      [some ⟨"fn;\"7","a b;\"3.x",120,.function⟩,some ⟨"","a b;\"3.x",0,.binding⟩,
        some ⟨"ünt 1;\"","a b;\"3.x",9,.typeAlias⟩] ∧
    Tag.lines "a b;\"3.x" entrySample ≠ Tag.lines "a b;\"3.x" entrySample.reverse ∧
    (∀ scope ∈ (some "m" : Option String), IsField scope) ∧
    ∃ names, (tagSource ⟨.all,true,some "m"⟩ .standard #[] sampleFile.reader).1 =
      (#[] : Array Tag) ++ TagSettings.tagsOf ⟨.all,true,some "m"⟩ names ∧
      ∀ tag ∈ TagSettings.tagsOf ⟨.all,true,some "m"⟩ names, tag.kind = .function → IsField tag.name := by
  have hfile : IsField "a b;\"3.x" := by decide
  have hnames : ∀ tag ∈ entrySample, IsField tag.name := by decide
  have hreverse : ∀ tag ∈ entrySample.reverse, IsField tag.name := by decide
  have hscope : ∀ scope ∈ (some "m" : Option String), IsField scope := by decide
  refine ⟨hfile,hnames,tagLines_readBack.1 _ entrySample hfile hnames,?_,hscope,?_⟩
  · intro heq
    have hentries := tagLines_readBack.2.1 _ entrySample _ entrySample.reverse hfile hnames hfile hreverse heq
    revert hentries
    decide
  · obtain ⟨names,htags,-,-,-,hfunctions⟩ :=
      tagLines_readBack.2.2 ⟨.all,true,some "m"⟩ .standard #[] sampleFile.reader hscope
    exact ⟨names,htags,hfunctions⟩

end SourceTags
