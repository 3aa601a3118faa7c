import NamespaceLang.CommandLine.Arguments
import NamespaceLang.Compile
import NamespaceLang.Diagnostic.Render
import NamespaceLang.Tree.Record

/-!
# Reports

What the program writes and the code that it leaves with. Diagnostics are
written to the error output, and a file without any leaves zero.
-/

set_option autoImplicit false

namespace NamespaceLang.CommandLine

/-- Why a file could not be had. -/
inductive FileProblem where
  | missing
  | throughFile
  | nameTooLong
  | directory
  | denied
  | tooLarge (bytes : Nat)
  | notText
  | other (text : String)
  deriving DecidableEq, Repr, Inhabited

structure Report where
  code : Nat
  output : String
  errors : String
  deriving DecidableEq, Repr, Inhabited

def sizeLimit : Nat := 100 * 1024 * 1024

def programName : String := "cvl"

def versionText : String := programName ++ " 0.1.0-alpha.1\n"

def usageText : String :=
  "Usage: " ++ programName ++ " [OPTIONS] [FILE] [COMMAND]\n"

def helpText : String :=
  "Compile-time namespace language compiler\n\n" ++ usageText ++ "\nCommands:\n" ++
  "  check  Run the full pipeline and report diagnostics\n" ++
  "  parse  Tokenize only and print the syntax tree\n" ++
  "  help   Print this message or the help of the given subcommand(s)\n\nArguments:\n" ++
  "  [FILE]  File to check (default action when no subcommand given)\n\nOptions:\n" ++
  "      --label <NAME>  Label used for the file in positions and diagnostics (defaults to the " ++
  "path as given)\n  -h, --help          Print help\n  -V, --version       Print version\n"

def FileProblem.message (path : String) : FileProblem → String
  | .missing => "Cannot access file '" ++ path ++ "': No such file or directory (os error 2)"
  | .throughFile => "Cannot access file '" ++ path ++ "': Not a directory (os error 20)"
  | .nameTooLong => "Cannot access file '" ++ path ++ "': File name too long (os error 36)"
  | .directory => "Error reading file '" ++ path ++ "': Is a directory (os error 21)"
  | .denied => "Error reading file '" ++ path ++ "': Permission denied (os error 13)"
  | .tooLarge bytes =>
    "Source file '" ++ path ++ "' is too large (" ++ toString bytes ++ " bytes, max "
      ++ toString sizeLimit ++ " bytes)"
  | .notText => "Error reading file '" ++ path ++ "': stream did not contain valid UTF-8"
  | .other text => "Error reading file '" ++ path ++ "': " ++ text

namespace Report

def failure (message : String) : Report := ⟨1, "", message ++ "\n"⟩

def ofDiagnostics (output : String) (ds : List Diagnostic) (source : Source) : Report :=
  ⟨if ds.isEmpty then 0 else 1, output, renderAll ds source⟩

def ofText (action : Action) (label : String) (text : List Char) : Report :=
  match action with
  | .check => ofDiagnostics "" (compile label text).diagnostics ⟨label, text⟩
  | .parse =>
    let read := tokenize label text
    let tree := (Text.Record.list (Tree.recordAll read.nodes)).block
    ofDiagnostics (tree ++ "\n") read.diagnostics ⟨label, text⟩

def textOf (content : ByteArray) : Except FileProblem (List Char) :=
  if sizeLimit < content.size then .error (.tooLarge content.size)
  else
    match String.fromUTF8? content with
    | some text => .ok text.toList
    | none => .error .notText

end Report

def Invocation.report {m : Type → Type} [Monad m] (open? : String → m (Except FileProblem ByteArray)) :
    Invocation → m Report
  | .help => return ⟨0, helpText, ""⟩
  | .version => return ⟨0, versionText, ""⟩
  | .nothing => return .failure "Error: no input file (try \x60cvl --help\x60)"
  | .run action path label? => do
    match (← open? path).bind Report.textOf with
    | .error problem => return .failure (problem.message path)
    | .ok text => return .ofText action (label?.getD path) text

/-- The report of a whole run of the program. -/
def run {m : Type → Type} [Monad m] (open? : String → m (Except FileProblem ByteArray))
    (args : List String) : m Report :=
  match Invocation.ofArguments? args with
  | some invocation => invocation.report open?
  | none => return ⟨2, "", usageText⟩

end NamespaceLang.CommandLine
