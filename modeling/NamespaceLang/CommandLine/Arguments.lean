/-!
# Arguments

A file is checked unless a command says that it is to be parsed. The label can
be given before or after the command; the one after it counts. Arguments are
read from the left, and the first that asks for help or for the version is
answered at once.
-/

set_option autoImplicit false

namespace NamespaceLang.CommandLine

inductive Action where
  | check
  | parse
  deriving DecidableEq, Repr, Inhabited

inductive Invocation where
  | help
  | version
  | run (action : Action) (path : String) (label? : Option String)
  | nothing
  deriving DecidableEq, Repr, Inhabited

def Action.ofName? : String → Option Action
  | "check" => some .check
  | "parse" => some .parse
  | _ => none

def helpName : String := "help"

structure Progress where
  action? : Option Action
  path? : Option String
  label? : Option String
  /-- The label that was given before the command. -/
  outerLabel? : Option String
  deriving Repr

namespace Progress

def start : Progress := ⟨none, none, none, none⟩

def withLabel? (p : Progress) (label : String) : Option Progress :=
  if p.label?.isSome then none else some { p with label? := some label }

def withPath? (p : Progress) (path : String) : Option Progress :=
  if p.path?.isSome || path.isEmpty then none else some { p with path? := some path }

def within (p : Progress) (action : Action) : Progress := ⟨some action, none, none, p.label?⟩

def finish? (p : Progress) : Option Invocation :=
  match p.action?, p.path? with
  | none, none => some .nothing
  | some _, none => none
  | action?, some path => some (.run (action?.getD .check) path (p.label?.or p.outerLabel?))

def readPaths? (p : Progress) : List String → Option Invocation
  | [] => p.finish?
  | path :: rest => do (← p.withPath? path).readPaths? rest

/-- Reads an option without a value; only help is there after a command. -/
def option? (p : Progress) (isHelp isVersion : Bool) : Option Invocation :=
  if isHelp then some .help
  else if isVersion && p.action?.isNone then some .version
  else none

def isValue (text : String) : Bool := text == "-" || !text.startsWith "-"

def afterHelp? : List String → Option Invocation
  | [] => some .help
  | [name] => if name == helpName || (Action.ofName? name).isSome then some .help else none
  | _ => none

def read? (p : Progress) : List String → Option Invocation
  | [] => p.finish?
  | "--label" :: rest =>
    match rest with
    | value :: rest => if isValue value then do (← p.withLabel? value).read? rest else none
    | [] => none
  | arg :: rest =>
    match arg.toList with
    | ['-', '-'] => p.readPaths? rest
    | '-' :: '-' :: 'l' :: 'a' :: 'b' :: 'e' :: 'l' :: '=' :: label => do
      (← p.withLabel? (String.ofList label)).read? rest
    | '-' :: '-' :: name => p.option? (name == "help".toList) (name == "version".toList)
    | '-' :: letter :: _ => p.option? (letter == 'h') (letter == 'V')
    | _ =>
      if p.action?.isSome then do (← p.withPath? arg).read? rest
      else if arg == helpName then afterHelp? rest
      else
        match Action.ofName? arg with
        | some action => (p.within action).read? rest
        | none => do (← p.withPath? arg).read? rest

end Progress

def Invocation.ofArguments? (args : List String) : Option Invocation := Progress.start.read? args

end NamespaceLang.CommandLine
