import SourceTags.Declaration.Basic
import SourceTags.Program.Command
import SourceTags.Source.File
import SourceTags.Tag.Line

/-! # Reports of a run

A run answers with an exit code and two texts. The files are tagged apart from one another and reported
in the order in which they were named: the tags of a file that could be read go to the output, and a
message for a file that could not be read goes to the error text.
-/
namespace SourceTags

/-- Why a file cannot be read: the reason in words and its number in the operating system. -/
structure ReadFailure where
  reason : String
  number : Nat
  deriving DecidableEq

namespace ReadFailure

def notFound : ReadFailure := ⟨"No such file or directory",2⟩

def isDirectory : ReadFailure := ⟨"Is a directory",21⟩

def message (file : String) (e : ReadFailure) : String :=
  "cannot read `" ++ file ++ "`: " ++ e.reason ++ " (os error " ++ toString e.number ++ ")"

end ReadFailure

structure Report where
  code : Nat
  output : String
  errors : String
  deriving DecidableEq

def errorLine (message : String) : String := "error: " ++ message ++ "\n"

namespace Report

def success (output : String) : Report := ⟨0,output,""⟩

def usage (e : UsageError) : Report :=
  ⟨2,"",errorLine e.message ++ "Run `rstags --help` for usage.\n"⟩

/-- Adds what came of one file. -/
def add (r : Report) (file : String) (result : Except ReadFailure (List Tag)) : Report :=
  match result with
  | .ok tags => { r with output := r.output ++ Tag.lines file tags }
  | .error e => { r with code := 1, errors := r.errors ++ errorLine (e.message file) }

def ofResults (results : List (String × Except ReadFailure (List Tag))) : Report :=
  results.foldl (fun r result => r.add result.1 result.2) (success "")

end Report

def tagsOfBytes (settings : TagSettings) (bytes : List UInt8) : List Tag :=
  (tagSource settings .standard #[] (SourceFile.reader ⟨bytes⟩)).1.toList

def helpLines : List String :=
  ["rstags 0.1.0",
    "Generate tags for fn, type and let declarations",
    "",
    "Usage: rstags [options] <file>...",
    "",
    "Options:",
    "  --kinds=<letters>   Kinds to emit: f (functions), l (let), t (types)",
    "                      A leading + or - edits the full set, e.g. -l",
    "  --qualified         Also emit scope.name for every tag",
    "  --scope=<name>      Scope used by --qualified",
    "  --list-kinds        List tag kinds and exit",
    "  -h, --help          Show this help message",
    "",
    "Logging:",
    "  RUST_LOG=rstags_parse=debug   Log every emitted tag to stderr",
    "",
    "Examples:",
    "  rstags src/main.rs",
    "  rstags --kinds=f src/*.rs             # Functions only",
    "  rstags --qualified --scope=geo a.rs   # Adds geo.<name> tags"]

def helpText : String := String.join (helpLines.map (· ++ "\n"))

/-- Tags the files. The bytes of a file are asked for by its name. -/
def Report.ofFiles {m : Type → Type} [Monad m]
    (readFile : String → m (Except ReadFailure (List UInt8))) (settings : TagSettings)
    (files : List String) : m Report := do
  let results ← files.mapM fun file => do
    let bytes ← readFile file
    pure (file,bytes.map (tagsOfBytes settings))
  pure (.ofResults results)

/-- Carries out a command line. -/
def Report.ofArguments {m : Type → Type} [Monad m]
    (readFile : String → m (Except ReadFailure (List UInt8))) (args : List String) : m Report :=
  match Command.ofArguments args with
  | .error e => pure (.usage e)
  | .ok .help => pure (.success helpText)
  | .ok .listKinds => pure (.success kindLines)
  | .ok (.tag settings files) => Report.ofFiles readFile settings files

end SourceTags
