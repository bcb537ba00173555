import SourceTags.Proofs.Simulation

/-! # Settings choose among the tags

A pass never looks at its settings on its way through a source. Passes with different settings read the same
tokens and report the same names, and differ in what they make of a name alone: so the tags of any settings
are chosen from the tags of the standard ones, and those given before stay in front of them.
-/
namespace SourceTags

namespace TagSettings

/-- The tag, and after it the same one under the name that the scope qualifies. -/
def withQualified (s : TagSettings) (tag : Tag) : List Tag :=
  match s.scope with
  | some scope =>
    if s.qualified = true ∧ scope ≠ "" then [tag,⟨scope ++ "." ++ tag.name,tag.kind,tag.pos⟩] else [tag]
  | none => [tag]

/-- What the settings make of the tags of all kinds. -/
def select (s : TagSettings) (tags : List Tag) : List Tag :=
  (tags.filter fun tag => s.kinds.contains tag.kind).flatMap s.withQualified

variable (s : TagSettings)

@[simp] theorem select_nil : s.select [] = [] := rfl

theorem select_append (tags more : List Tag) : s.select (tags ++ more) = s.select tags ++ s.select more := by
  simp only [select,List.filter_append,List.flatMap_append]

theorem withQualified_ofToken (kind : DeclarationKind) (name : Token) :
    s.withQualified (.ofToken kind name) =
      match s.qualifier with
      | some scope => [.ofToken kind name,(Tag.ofToken kind name).qualify scope]
      | none => [.ofToken kind name] := by
  obtain ⟨kinds,qualified,scope⟩ := s
  unfold withQualified qualifier
  cases qualified with
  | false => cases scope <;> rfl
  | true =>
    cases scope with
    | none => rfl
    | some scope => by_cases h : scope = "" <;> simp [Option.filter,h,Tag.qualify]

theorem tagsFor_eq_select (kind : DeclarationKind) (name : Token) :
    s.tagsFor kind name = s.select (standard.tagsFor kind name) := by
  have hkind : (Tag.ofToken kind name).kind = kind := rfl
  rw [tagsFor_standard,tagsFor,select,List.filter_cons,List.filter_nil,hkind]
  cases s.kinds.contains kind with
  | false => rfl
  | true => exact (s.withQualified_ofToken kind name).symm.trans (List.append_nil _).symm

end TagSettings

variable {τ : Type}

structure Pass.SelectsFrom (s : TagSettings) (given : Array Tag) (p q : Pass τ) : Prop where
  standard : p.settings = .standard
  settings : q.settings = s
  tags : q.tags = given ++ s.select p.tags.toList
  count : q.count = (s.select p.tags.toList).length

theorem kept_selectsFrom (s : TagSettings) (given : Array Tag) :
    Kept Eq (Pass.SelectsFrom s given : Pass τ → Pass τ → Prop) where
  withInput _ _ h := ⟨h.standard,h.settings,h.tags,h.count⟩
  report := by
    rintro p q t _ kind rfl ⟨hp,hq,htags,hcount⟩
    have hselect : s.select (p.report kind t).tags.toList = s.select p.tags.toList ++ s.tagsFor kind t := by
      rw [Pass.report,hp,Array.toList_appendList,s.select_append,← s.tagsFor_eq_select]
    refine ⟨hp,hq,?_,?_⟩
    · rw [hselect]
      simp only [Pass.report,hq,htags,← Array.toList_inj,Array.toList_appendList,List.append_assoc]
    · rw [hselect]
      simp only [Pass.report,hq,hcount,List.length_append]

/-- With any settings, the tags that are added are those that the settings make of the tags of all kinds, and
their number is given. -/
theorem tagSource_eq_select {σ : Type} [ByteSource σ] (settings : TagSettings) (lexicon : Lexicon)
    (tags : Array Tag) (source : σ) :
    let found := settings.select (tagSource .standard lexicon #[] source).1.toList
    tagSource settings lexicon tags source = (tags ++ found,found.length) := by
  let p := Pass.start .standard #[] (Scanner.ofSource source lexicon)
  let q := Pass.start settings tags (Scanner.ofSource source lexicon)
  have h : Pass.SelectsFrom settings tags p.declarations.2 q.declarations.2 :=
    Simulation.refl.declarations (kept_selectsFrom settings tags) rfl ⟨rfl,rfl,by simp [p,q,Pass.start],rfl⟩
  exact Prod.ext h.tags h.count

end SourceTags
