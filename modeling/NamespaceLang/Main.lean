import NamespaceLang.CommandLine.Report

/-!
# The program

Opens the file that the arguments name and writes the report.
-/

set_option autoImplicit false

namespace NamespaceLang.CommandLine

def FileProblem.ofError : IO.Error → FileProblem
  | .noFileOrDirectory .. => .missing
  | .permissionDenied .. => .denied
  | .inappropriateType name code text =>
    -- The code may come with its sign turned.
    let number := min code (0 - code)
    if number = 20 then .throughFile
    else if number = 21 then .directory
    else .other (toString (IO.Error.inappropriateType name code text))
  | .invalidArgument name code text =>
    if min code (0 - code) = 36 then .nameTooLong
    else .other (toString (IO.Error.invalidArgument name code text))
  | problem => .other (toString problem)

def openFile (path : String) : IO (Except FileProblem ByteArray) := do
  match ← (IO.FS.readBinFile path).toBaseIO with
  | .ok content => return .ok content
  | .error problem => return .error (.ofError problem)

end NamespaceLang.CommandLine

open NamespaceLang.CommandLine in
def main (args : List String) : IO UInt32 := do
  let report ← run openFile args
  (← IO.getStdout).putStr report.output
  (← IO.getStderr).putStr report.errors
  return report.code.toUInt32
