import SourceTags.Program.Report
import SourceTags.Proofs.ReportedNames

/-! # Runs over lists of files

A run over some files and then others writes what the two runs write, one after the other, and fails if one of them
fails. So a run is put together from what the single files contribute, whatever stands before and after them in the
list.
-/
namespace SourceTags

namespace Report

instance : Append Report where
  append r q := ⟨max r.code q.code,r.output ++ q.output,r.errors ++ q.errors⟩

theorem append_def (r q : Report) :
    r ++ q = ⟨max r.code q.code,r.output ++ q.output,r.errors ++ q.errors⟩ := rfl

theorem append_assoc (r q s : Report) : r ++ q ++ s = r ++ (q ++ s) := by
  simp only [append_def,Nat.max_assoc,String.append_assoc]

theorem append_success (r : Report) : r ++ success "" = r := by
  simp [append_def,success]

variable {r : Report}

theorem code_add_le (h : r.code ≤ 1) (file : String) (result : Except ReadFailure (List Tag)) :
    (r.add file result).code ≤ 1 := by
  cases result with
  | ok tags => exact h
  | error e => exact Nat.le_refl 1

theorem add_eq_append (h : r.code ≤ 1) (file : String) (result : Except ReadFailure (List Tag)) :
    r.add file result = r ++ (success "").add file result := by
  cases result with
  | ok tags => simp [add,append_def,success]
  | error e =>
    have hcode : max r.code 1 = 1 := Nat.max_eq_right h
    simp [add,append_def,success,hcode]

variable (results more : List (String × Except ReadFailure (List Tag)))

theorem foldl_add (h : r.code ≤ 1) :
    results.foldl (fun r result => r.add result.1 result.2) r = r ++ ofResults results := by
  induction results generalizing r with
  | nil => exact (append_success r).symm
  | cons result results ih =>
    have hone : ((success "").add result.1 result.2).code ≤ 1 := code_add_le (Nat.zero_le 1) ..
    calc
      _ = r.add result.1 result.2 ++ ofResults results := ih (code_add_le h ..)
      _ = r ++ ((success "").add result.1 result.2 ++ ofResults results) := by
        rw [add_eq_append h,append_assoc]
      _ = r ++ ofResults (result :: results) := congrArg (r ++ ·) (ih hone).symm

theorem code_foldl_add_le (h : r.code ≤ 1) :
    (results.foldl (fun r result => r.add result.1 result.2) r).code ≤ 1 := by
  induction results generalizing r with
  | nil => exact h
  | cons result results ih => exact ih (code_add_le h ..)

theorem code_ofResults_le : (ofResults results).code ≤ 1 := code_foldl_add_le results (Nat.zero_le 1)

theorem ofResults_append : ofResults (results ++ more) = ofResults results ++ ofResults more := by
  rw [ofResults,List.foldl_append]
  exact foldl_add more (code_ofResults_le results)

/-- Wherever the files are read from, a run over two lists is a run over the one and then a run over the other. -/
theorem ofFiles_append {m : Type → Type} [Monad m] [LawfulMonad m]
    (readFile : String → m (Except ReadFailure (List UInt8))) (settings : TagSettings) (files more : List String) :
    ofFiles readFile settings (files ++ more) =
      ofFiles readFile settings files >>= fun r => (r ++ ·) <$> ofFiles readFile settings more := by
  simp only [ofFiles,List.mapM_append,bind_assoc,pure_bind,ofResults_append,map_bind,map_pure]

end Report

/-- What is read under each name: the bytes of a file, or why there are none. -/
abbrev Disk := String → Except ReadFailure (List UInt8)

namespace Disk

variable (disk : Disk) (settings : TagSettings)

/-- The report of a run over files that stay as they are. -/
def report (files : List String) : Report := Id.run (Report.ofFiles (fun file => pure (disk file)) settings files)

theorem report_append (files more : List String) :
    disk.report settings (files ++ more) = disk.report settings files ++ disk.report settings more :=
  congrArg Id.run (Report.ofFiles_append (m := Id) (fun file => pure (disk file)) settings files more)

theorem code_report_le (files : List String) : (disk.report settings files).code ≤ 1 := Report.code_ofResults_le _

theorem report_singleton (file : String) :
    disk.report settings [file] = (Report.success "").add file ((disk file).map (tagsOfBytes settings)) := rfl

theorem code_report_append (files more : List String) :
    (disk.report settings (files ++ more)).code =
      if (disk.report settings files).code = 1 ∨ (disk.report settings more).code = 1 then 1 else 0 := by
  have hfiles := disk.code_report_le settings files
  have hmore := disk.code_report_le settings more
  rw [report_append]
  change max _ _ = _
  split <;> omega

end Disk

theorem errorLine_message (file : String) (e : ReadFailure) :
    errorLine (e.message file) =
      "error: cannot read `" ++ file ++ "`: " ++ e.reason ++ " (os error " ++ toString e.number ++ ")\n" := by
  have hstart : "error: cannot read `" = "error: " ++ "cannot read `" := by decide
  have hend : ")\n" = ")" ++ "\n" := by decide
  unfold errorLine ReadFailure.message
  rw [hstart,hend]
  generalize toString e.number = number
  simp only [String.append_assoc]

/-- A run is put together from its files. Over one list after another it writes and fails as the runs over the two
lists do. A file that can be read contributes the lines of its own tags, and nothing to the errors; one that cannot
contributes one error line, which names it and says why, and makes the run fail. This is what every command line
does that asks for tags. -/
theorem report_fileList (disk : Disk) (settings : TagSettings) :
    (∀ files more,
      (disk.report settings (files ++ more)).output =
        (disk.report settings files).output ++ (disk.report settings more).output ∧
      (disk.report settings (files ++ more)).errors =
        (disk.report settings files).errors ++ (disk.report settings more).errors ∧
      (disk.report settings (files ++ more)).code =
        if (disk.report settings files).code = 1 ∨ (disk.report settings more).code = 1 then 1 else 0) ∧
    (∀ file bytes, disk file = .ok bytes → disk.report settings [file] =
      ⟨0,Tag.lines file (tagSource settings .standard #[] (SourceFile.reader ⟨bytes⟩)).1.toList,""⟩) ∧
    (∀ file e, disk file = .error e → disk.report settings [file] =
      ⟨1,"","error: cannot read `" ++ file ++ "`: " ++ e.reason ++ " (os error " ++ toString e.number ++ ")\n"⟩) ∧
    ∀ args files, Command.ofArguments args = .ok (.tag settings files) →
      Id.run (Report.ofArguments (fun file => pure (disk file)) args) = disk.report settings files := by
  refine ⟨?_,?_,?_,?_⟩
  · intro files more
    have happend := disk.report_append settings files more
    exact ⟨congrArg Report.output happend,congrArg Report.errors happend,disk.code_report_append settings files more⟩
  · intro file bytes h
    rw [Disk.report_singleton,h]
    change (⟨0,"" ++ Tag.lines file (tagsOfBytes settings bytes),""⟩ : Report) = _
    rw [String.empty_append]
    rfl
  · intro file e h
    rw [Disk.report_singleton,h]
    change (⟨1,"","" ++ errorLine (e.message file)⟩ : Report) = _
    rw [String.empty_append,errorLine_message]
  · intro args files h
    rw [Report.ofArguments,h]
    rfl

def sampleDisk : Disk := fun file => if file = "a.rs" then .ok sampleFile.bytes else .error .notFound

def sampleLines : String :=
  "a\ta.rs\t1;\"\tf\nm.a\ta.rs\t1;\"\tf\nb\ta.rs\t2;\"\tl\nm.b\ta.rs\t2;\"\tl\nc\ta.rs\t2;\"\tl\nm.c\ta.rs\t2;\"\tl\n"

theorem lines_sampleFile :
    Tag.lines "a.rs" (tagSource ⟨.all,true,some "m"⟩ .standard #[] sampleFile.reader).1.toList = sampleLines := by
  have hscanned := sampleFile.scanned_tokens .standard
  rw [tagSource_eq_tagTokens,tagTokens_wellFormed_all rfl wellFormed_sampleFile hscanned]
  decide +kernel

theorem report_fileList_sample :
    let settings : TagSettings := ⟨.all,true,some "m"⟩
    let args := ["--qualified","a.rs","--scope=m","","a.rs"]
    let r := Id.run (Report.ofArguments (fun file => pure (sampleDisk file)) args)
    Command.ofArguments args = .ok (.tag settings ["a.rs","","a.rs"]) ∧
    sampleDisk "a.rs" = .ok (Utf8.encode "fn a() \x7b\x7d\nlet b, c int\n") ∧ sampleDisk "" = .error .notFound ∧
    r.code = 1 ∧ r.output = sampleLines ++ sampleLines ∧
    r.errors = "error: cannot read ``: No such file or directory (os error 2)\n" := by
  intro settings args r
  have hargs : Command.ofArguments args = .ok (.tag settings ["a.rs","","a.rs"]) := by rfl
  have hfile : sampleDisk "a.rs" = .ok sampleFile.bytes := rfl
  have hmissing : sampleDisk "" = .error .notFound := rfl
  obtain ⟨happend,hread,hfail,hprogram⟩ := report_fileList sampleDisk settings
  obtain ⟨hout,herr,hcode⟩ := happend ["a.rs"] ([""] ++ ["a.rs"])
  obtain ⟨hout',herr',hcode'⟩ := happend [""] ["a.rs"]
  have hr : r = sampleDisk.report settings (["a.rs"] ++ ([""] ++ ["a.rs"])) := hprogram args _ hargs
  have hone := hread "a.rs" _ hfile
  have hnone := hfail "" _ hmissing
  have hlines : Tag.lines "a.rs" (tagSource settings .standard #[] (SourceFile.reader ⟨sampleFile.bytes⟩)).1.toList =
    sampleLines := lines_sampleFile
  rw [hlines] at hone
  rw [hnone] at hout' herr' hcode'
  rw [hone] at hout herr hcode hout' herr' hcode'
  refine ⟨hargs,hfile,hmissing,?_,?_,?_⟩
  · rw [hr,hcode]
    exact if_pos (.inr hcode')
  · rw [hr,hout]
    exact congrArg (sampleLines ++ ·) (hout'.trans String.empty_append)
  · rw [hr,herr]
    exact String.empty_append.trans (herr'.trans (by decide))

end SourceTags
