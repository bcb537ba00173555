import Mathlib.Data.List.Basic
import SourceTags.Program.Command

/-! # What a command line lists

The arguments are read in order, yet what a line asks for can be said without an order of reading. Up to the argument
that ends the options every argument speaks for itself: it names a file, or sets an option, or is refused. The first
that is refused makes the line wrong. Otherwise the files are those named, in their order, and each option has its last
value, so it makes no difference where among the files the options stand.
-/
namespace SourceTags

namespace Argument

def namesFile (arg : String) : Bool := arg.toList.head? != some '-'

/-- The selection that the argument asks for, if its letters can be read. -/
def kinds? (arg : String) : Option Selection :=
  (value? "--kinds=" arg).bind fun letters => (Selection.parse letters).toOption

/-- Why the argument is refused before the end of the options. It begins with a dash then, and it is none of the options
or asks for kinds by a string that cannot be read. -/
def refusal? (arg : String) : Option UsageError :=
  if namesFile arg || arg == "--qualified" || (value? "--scope=" arg).isSome then none
  else
    match value? "--kinds=" arg with
    | none => some (.unknownOption arg)
    | some letters =>
      match Selection.parse letters with
      | .ok _ => none
      | .error e => some (.badSelection e)

variable {arg start rest : String}

theorem value?_eq_some_iff : value? start arg = some rest ↔ arg = start ++ rest := by
  rw [value?,Option.map_eq_some_iff,← String.toList_inj,String.toList_append]
  constructor
  · rintro ⟨cs,hcs,rfl⟩
    rw [String.toList_ofList]
    exact (List.isPrefixOf?_eq_some_iff_append_eq.mp hcs).symm
  · intro h
    exact ⟨rest.toList,List.isPrefixOf?_eq_some_iff_append_eq.mpr h.symm,String.ofList_toList⟩

/-- The answers to what may be asked about an argument. -/
structure Answers (arg : String) (file qualified : Bool) (kinds scope : Option String) : Prop where
  file : namesFile arg = file
  qualified : (arg == "--qualified") = qualified
  kinds : value? "--kinds=" arg = kinds
  scope : value? "--scope=" arg = scope

theorem answers_cases (arg : String) :
    Answers arg true false none none ∨ Answers arg false true none none ∨
    (∃ letters, Answers arg false false (some letters) none) ∨ (∃ name, Answers arg false false none (some name)) ∨
    Answers arg false false none none := by
  have hdash {start rest : String} (hv : value? start arg = some rest) (hs : start.toList.head? = some '-') :
      namesFile arg = false := by
    rw [namesFile,value?_eq_some_iff.mp hv,String.toList_append,List.head?_append,hs]
    rfl
  by_cases hq : arg = "--qualified"
  · subst hq
    exact .inr (.inl ⟨rfl,rfl,rfl,rfl⟩)
  have hq : (arg == "--qualified") = false := beq_eq_false_iff_ne.mpr hq
  cases hk : value? "--kinds=" arg with
  | some letters =>
    have hs : value? "--scope=" arg = none := by
      rw [value?_eq_some_iff.mp hk]
      cases hv : value? "--scope=" ("--kinds=" ++ letters) with
      | none => rfl
      | some name =>
        have hsame := congrArg String.toList (value?_eq_some_iff.mp hv)
        simp at hsame
    exact .inr (.inr (.inl ⟨letters,hdash hk (by decide),hq,hk,hs⟩))
  | none =>
    cases hs : value? "--scope=" arg with
    | some name => exact .inr (.inr (.inr (.inl ⟨name,hdash hs (by decide),hq,hk,hs⟩)))
    | none =>
      cases hf : namesFile arg with
      | true => exact .inl ⟨hf,hq,hk,hs⟩
      | false => exact .inr (.inr (.inr (.inr ⟨hf,hq,hk,hs⟩)))

theorem ofString_eq (h : arg ≠ "--") :
    Argument.ofString arg =
      if namesFile arg then .file arg
      else if arg == "--qualified" then .qualified
      else
        match value? "--kinds=" arg with
        | some letters => .kinds letters
        | none =>
          match value? "--scope=" arg with
          | some name => .scope name
          | none => .unknown arg := by
  simp only [beq_iff_eq]
  rw [Argument.ofString,if_neg h]
  rfl

theorem answers_of_kinds {letters : String} (h : value? "--kinds=" arg = some letters) :
    Answers arg false false (some letters) none := by
  rcases answers_cases arg with a | a | ⟨letters',a⟩ | ⟨name,a⟩ | a
  case inr.inr.inl =>
    obtain rfl := Option.some.inj (h.symm.trans a.kinds)
    exact a
  all_goals exact absurd (h.symm.trans a.kinds) (by simp)

theorem exists_parse {letters : String} (h : refusal? arg = none) (hk : value? "--kinds=" arg = some letters) :
    ∃ kinds, Selection.parse letters = .ok kinds := by
  have a := answers_of_kinds hk
  rw [refusal?,a.file,a.qualified,a.scope,hk] at h
  cases hp : Selection.parse letters with
  | ok kinds => exact ⟨kinds,rfl⟩
  | error e => simp [hp] at h

end Argument

open Argument

namespace TagSettings

/-- The settings after some arguments: each option has the last value that they give it. -/
def following (s : TagSettings) (args : List String) : TagSettings where
  kinds := (args.filterMap kinds?).getLast?.getD s.kinds
  qualified := s.qualified || args.contains "--qualified"
  scope := (args.filterMap (value? "--scope=")).getLast?.or s.scope

theorem following_nil (s : TagSettings) : s.following [] = s := by
  obtain ⟨kinds,qualified,scope⟩ := s
  simp [following]

theorem following_append (s : TagSettings) (args more : List String) :
    s.following (args ++ more) = (s.following args).following more := by
  simp only [following,List.filterMap_append,List.getLast?_append,List.contains_append,TagSettings.mk.injEq]
  refine ⟨?_,(Bool.or_assoc ..).symm,Option.or_assoc⟩
  cases (more.filterMap kinds?).getLast? <;> rfl

theorem following_singleton (s : TagSettings) (arg : String) :
    s.following [arg] =
      ⟨(kinds? arg).getD s.kinds,s.qualified || arg == "--qualified",(value? "--scope=" arg).or s.scope⟩ := by
  have hone {β : Type} (f : String → Option β) : ([arg].filterMap f).getLast? = f arg := by
    rw [List.filterMap_cons]
    cases f arg <;> rfl
  rw [following,hone,hone,List.contains_cons,List.contains_nil,Bool.or_false,BEq.comm]

theorem following_filter (s : TagSettings) (args : List String) :
    s.following (args.filter (!namesFile ·)) = s.following args := by
  induction args generalizing s with
  | nil => rfl
  | cons arg args ih =>
    rw [← List.singleton_append (l := args),following_append]
    cases hf : namesFile arg with
    | true =>
      have hsame : s.following [arg] = s := by
        rcases answers_cases arg with a | a | ⟨letters,a⟩ | ⟨name,a⟩ | a
        · rw [following_singleton,kinds?,a.kinds,a.scope,a.qualified,Bool.or_false]
          rfl
        all_goals exact absurd (hf.symm.trans a.file) (by decide)
      rw [List.singleton_append,List.filter_cons_of_neg (by simp [hf]),hsame,ih]
    | false =>
      rw [List.singleton_append,List.filter_cons_of_pos (by simp [hf]),← List.singleton_append,following_append,ih]

end TagSettings

namespace Command

/-- One argument before the end of the options: it is refused, or the settings follow it and it may name a file. -/
theorem readArguments_cons {arg : String} (h : arg ≠ "--") (settings : TagSettings) (files rest : List String) :
    readArguments settings files (arg :: rest) =
      match refusal? arg with
      | some e => .error e
      | none => readArguments (settings.following [arg]) (files ++ [arg].filter namesFile) rest := by
  rw [readArguments,ofString_eq h,refusal?,TagSettings.following_singleton,kinds?,List.filter_cons,List.filter_nil]
  rcases answers_cases arg with a | a | ⟨letters,a⟩ | ⟨name,a⟩ | a
  · simp [a.file,a.qualified,a.kinds,a.scope]
  · simp [a.file,a.qualified,a.kinds,a.scope]
  · rw [a.file,a.qualified,a.kinds,a.scope]
    cases hp : Selection.parse letters <;> simp [hp,Except.toOption]
  · simp [a.file,a.qualified,a.kinds,a.scope]
  · simp [a.file,a.qualified,a.kinds,a.scope]

theorem findSome?_filter (args : List String) :
    (args.filter (!namesFile ·)).findSome? refusal? = args.findSome? refusal? := by
  induction args with
  | nil => rfl
  | cons arg args ih =>
    cases hf : namesFile arg with
    | true =>
      have hnone : refusal? arg = none := by simp [refusal?,hf]
      rw [List.filter_cons_of_neg (by simp [hf]),List.findSome?_cons,hnone,ih]
    | false => rw [List.filter_cons_of_pos (by simp [hf]),List.findSome?_cons,List.findSome?_cons,ih]

/-- The arguments before the one that ends the options, which are all if none does. -/
def beforeEnd (args : List String) : List String := args.takeWhile (· != "--")

/-- The arguments after the one that ends the options. -/
def afterEnd (args : List String) : List String := (args.dropWhile (· != "--")).tail

variable {arg : String}

theorem beforeEnd_cons (h : arg ≠ "--") (rest : List String) : beforeEnd (arg :: rest) = [arg] ++ beforeEnd rest :=
  List.takeWhile_cons_of_pos (bne_iff_ne.mpr h)

theorem afterEnd_cons (h : arg ≠ "--") (rest : List String) : afterEnd (arg :: rest) = afterEnd rest :=
  congrArg List.tail (List.dropWhile_cons_of_pos (bne_iff_ne.mpr h))

theorem readArguments_eq (settings : TagSettings) (files args : List String) :
    readArguments settings files args =
      match (beforeEnd args).findSome? refusal? with
      | some e => .error e
      | none =>
        .ok (settings.following (beforeEnd args),files ++ ((beforeEnd args).filter namesFile ++ afterEnd args)) := by
  induction args generalizing settings files with
  | nil => simp [readArguments,beforeEnd,afterEnd,TagSettings.following_nil]
  | cons arg rest ih =>
    by_cases h : arg = "--"
    · subst h
      have hread : Argument.ofString "--" = .endOfOptions := by decide
      have hbefore : beforeEnd ("--" :: rest) = [] := List.takeWhile_cons_of_neg (by decide)
      have hafter : afterEnd ("--" :: rest) = rest := congrArg List.tail (List.dropWhile_cons_of_neg (by decide))
      rw [readArguments,hread,hbefore,hafter]
      simp [TagSettings.following_nil]
    · rw [readArguments_cons h,beforeEnd_cons h,afterEnd_cons h,List.singleton_append,List.findSome?_cons]
      cases refusal? arg with
      | some e => rfl
      | none =>
        dsimp only
        rw [ih,← List.singleton_append (l := beforeEnd rest),TagSettings.following_append,List.filter_append]
        simp only [List.append_assoc]

theorem kinds_following {args : List String} (h : args.findSome? refusal? = none) :
    match (args.filterMap (value? "--kinds=")).getLast? with
    | some letters => Selection.parse letters = .ok (TagSettings.standard.following args).kinds
    | none => (TagSettings.standard.following args).kinds = .all := by
  have hkinds : args.filterMap kinds? =
      (args.filterMap (value? "--kinds=")).filterMap fun letters => (Selection.parse letters).toOption :=
    List.filterMap_filterMap.symm
  have hread : ∀ letters ∈ args.filterMap (value? "--kinds="), ∃ kinds, Selection.parse letters = .ok kinds := by
    intro letters hmem
    obtain ⟨arg,harg,hk⟩ := List.mem_filterMap.mp hmem
    exact exists_parse (List.findSome?_eq_none_iff.mp h arg harg) hk
  rw [TagSettings.following,hkinds]
  rcases List.eq_nil_or_concat (args.filterMap (value? "--kinds=")) with hnil | ⟨init,letters,hlast⟩
  · rw [hnil]
    rfl
  · rw [hlast,List.concat_eq_append] at hread ⊢
    obtain ⟨kinds,hp⟩ := hread letters (by simp)
    rw [List.getLast?_concat,List.filterMap_append]
    simp [hp,Except.toOption]

/-- Neither help nor the list of kinds is asked for anywhere. -/
def AsksForTags (args : List String) : Prop := "-h" ∉ args ∧ "--help" ∉ args ∧ "--list-kinds" ∉ args

instance (args : List String) : Decidable (AsksForTags args) :=
  inferInstanceAs (Decidable ("-h" ∉ args ∧ "--help" ∉ args ∧ "--list-kinds" ∉ args))

theorem ofArguments_eq {args : List String} (h : AsksForTags args) :
    ofArguments args =
      match (beforeEnd args).findSome? refusal? with
      | some e => .error e
      | none =>
        if (beforeEnd args).filter namesFile ++ afterEnd args = [] then .error .noFiles
        else .ok (tag (TagSettings.standard.following (beforeEnd args))
          ((beforeEnd args).filter namesFile ++ afterEnd args)) := by
  have hhelp : (args.any fun arg => arg == "--help" || arg == "-h") = false := by
    simp only [List.any_eq_false,Bool.or_eq_true,beq_iff_eq]
    rintro arg harg (rfl | rfl)
    · exact h.2.1 harg
    · exact h.1 harg
  have hlist : (args.any (· == "--list-kinds")) = false := by
    simp only [List.any_eq_false,beq_iff_eq]
    rintro arg harg rfl
    exact h.2.2 harg
  rw [ofArguments,hhelp,hlist,readArguments_eq,List.nil_append]
  cases (beforeEnd args).findSome? refusal? with
  | some e => rfl
  | none => cases (beforeEnd args).filter namesFile ++ afterEnd args <;> rfl

/-- A line that asks for tags fails with the first argument before the end of its options that is refused, and else
if it names no file. Otherwise its files are those named before the end of the options and all arguments after it, the
names are qualified if that was asked for, and the kinds and the scope are those of the last argument that gives some.
So lines with the same files and the same options, each in their order, mean the same. -/
theorem ofArguments_closedForm {args : List String} (h : AsksForTags args) :
    let options := beforeEnd args
    let files := options.filter namesFile ++ afterEnd args
    (∀ e, options.findSome? refusal? = some e → ofArguments args = .error e) ∧
    (options.findSome? refusal? = none → files = [] → ofArguments args = .error .noFiles) ∧
    (options.findSome? refusal? = none → files ≠ [] → ∃ kinds,
      (match (options.filterMap (value? "--kinds=")).getLast? with
        | some letters => Selection.parse letters = .ok kinds
        | none => kinds = .all) ∧
      ofArguments args = .ok (tag ⟨kinds,options.contains "--qualified",
        (options.filterMap (value? "--scope=")).getLast?⟩ files)) ∧
    ∀ args', AsksForTags args' → (beforeEnd args').filter namesFile = options.filter namesFile →
      (beforeEnd args').filter (!namesFile ·) = options.filter (!namesFile ·) → afterEnd args' = afterEnd args →
      ofArguments args' = ofArguments args := by
  intro options files
  refine ⟨?_,?_,?_,?_⟩
  · intro e he
    rw [ofArguments_eq h,he]
  · intro hnone hfiles
    rw [ofArguments_eq h,hnone]
    exact if_pos hfiles
  · intro hnone hfiles
    refine ⟨_,kinds_following hnone,?_⟩
    rw [ofArguments_eq h,hnone]
    dsimp only
    rw [if_neg hfiles]
    simp [TagSettings.following,TagSettings.standard,options,files]
  · intro args' h' hfiles hoptions hafter
    rw [ofArguments_eq h,ofArguments_eq h',← findSome?_filter,← TagSettings.following_filter,hfiles,hoptions,hafter,
      findSome?_filter,TagSettings.following_filter]

def sampleArguments : List String := ["--scope=m","a","--kinds=f","","--kinds=-l","--","-x","--qualified"]

theorem ofArguments_sampleArguments :
    AsksForTags sampleArguments ∧
    ofArguments sampleArguments =
      .ok (tag ⟨⟨true,false,true⟩,false,some "m"⟩ ["a","","-x","--qualified"]) ∧
    ofArguments ["--scope=m","--kinds=f","--kinds=-l","a","","--","-x","--qualified"] = ofArguments sampleArguments ∧
    ofArguments ["a","--kinds=fx","-"] = .error (.badSelection ⟨'x'⟩) ∧
    ofArguments ["--qualified","--"] = .error .noFiles := by
  have hplain : AsksForTags sampleArguments := by decide
  obtain ⟨-,-,hread,hmoved⟩ := ofArguments_closedForm hplain
  obtain ⟨kinds,hkinds,hargs⟩ := hread (by decide) (by decide)
  have hl : Selection.parse "-l" = .ok ⟨true,false,true⟩ := rfl
  obtain rfl := Except.ok.inj (hl.symm.trans hkinds)
  refine ⟨hplain,hargs,hmoved _ (by decide) (by decide) (by decide) (by decide),?_,?_⟩
  · exact (@ofArguments_closedForm ["a","--kinds=fx","-"] (by decide)).1 _ (by decide)
  · exact (@ofArguments_closedForm ["--qualified","--"] (by decide)).2.1 (by decide) (by decide)

end Command

end SourceTags
