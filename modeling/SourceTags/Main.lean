import SourceTags.Program.Report

/-! # The program

Tags the files named on the command line.
-/
namespace SourceTags

def failureOf : IO.Error → ReadFailure
  | .noFileOrDirectory _ number reason => ⟨reason,number.toNat⟩
  | .inappropriateType _ number reason => ⟨reason,number.toNat⟩
  | .permissionDenied _ number reason => ⟨reason,number.toNat⟩
  | .invalidArgument _ number reason => ⟨reason,number.toNat⟩
  | .resourceExhausted _ number reason => ⟨reason,number.toNat⟩
  | .otherError number reason => ⟨reason,number.toNat⟩
  | e => ⟨toString e,5⟩

def readFile (file : String) : IO (Except ReadFailure (List UInt8)) := do
  try
    let handle ← IO.FS.Handle.mk file .read
    let bytes ← handle.readBinToEnd
    return .ok bytes.toList
  catch e => return .error (failureOf e)

end SourceTags

def main (args : List String) : IO UInt32 := do
  let report ← SourceTags.Report.ofArguments SourceTags.readFile args
  IO.eprint report.errors
  IO.print report.output
  return report.code.toUInt32
