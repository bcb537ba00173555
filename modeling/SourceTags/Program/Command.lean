import SourceTags.Tag.Basic

/-! # Command lines

Each argument is a file or an option on its own; the value of an option follows an equals sign. A request
for help, or for the list of kinds, wins over all else on the line, errors included. Otherwise the first
argument that is no option makes the line wrong, and then the lack of a file.
-/
namespace SourceTags

inductive Command where
  | help
  | listKinds
  | tag (settings : TagSettings) (files : List String)
  deriving DecidableEq

inductive UsageError where
  | unknownOption (argument : String)
  | badSelection (unknown : UnknownLetter)
  | noFiles
  deriving DecidableEq

def UsageError.message : UsageError → String
  | unknownOption argument => "unknown option `" ++ argument ++ "`"
  | badSelection unknown => unknown.message
  | noFiles => "no input files"

/-- What an argument means before the one that ends the options. -/
inductive Argument where
  | file (name : String)
  | endOfOptions
  | qualified
  | kinds (letters : String)
  | scope (name : String)
  | unknown (argument : String)
  deriving DecidableEq

namespace Argument

/-- The rest of a text that begins as given. -/
def value? (start text : String) : Option String :=
  (start.toList.isPrefixOf? text.toList).map String.ofList

def ofString (s : String) : Argument :=
  if s.toList.head? != some '-' then file s
  else if s = "--" then endOfOptions
  else if s = "--qualified" then qualified
  else
    match value? "--kinds=" s with
    | some letters => kinds letters
    | none =>
      match value? "--scope=" s with
      | some name => scope name
      | none => unknown s

end Argument

namespace Command

/-- Reads arguments in order. A later option replaces an earlier one; files are kept in order. -/
def readArguments (settings : TagSettings) (files : List String) :
    List String → Except UsageError (TagSettings × List String)
  | [] => .ok (settings,files)
  | arg :: rest =>
    match Argument.ofString arg with
    | .file name => readArguments settings (files ++ [name]) rest
    | .endOfOptions => .ok (settings,files ++ rest)
    | .qualified => readArguments { settings with qualified := true } files rest
    | .kinds letters =>
      match Selection.parse letters with
      | .ok kinds => readArguments { settings with kinds } files rest
      | .error unknown => .error (.badSelection unknown)
    | .scope name => readArguments { settings with scope := some name } files rest
    | .unknown argument => .error (.unknownOption argument)

def ofArguments (args : List String) : Except UsageError Command :=
  if args.any fun arg => arg == "--help" || arg == "-h" then .ok help
  else if args.any (· == "--list-kinds") then .ok listKinds
  else
    match readArguments .standard [] args with
    | .error e => .error e
    | .ok (_,[]) => .error .noFiles
    | .ok (settings,files) => .ok (tag settings files)

end Command

end SourceTags
