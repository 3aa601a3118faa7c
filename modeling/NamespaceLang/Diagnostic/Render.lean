import NamespaceLang.Diagnostic.Basic

/-!
# Diagnostics as plain text

Each entry is one line, and under it the line of the source it points at, with
a caret below the column. The steps of the trace follow.
-/

set_option autoImplicit false

namespace NamespaceLang

structure Source where
  label : String
  text : List Char

def lineAfter : Nat → List Char → Option (List Char)
  | 0, text => some (text.takeWhile (· != '\n'))
  | n + 1, text =>
    match text.dropWhile (· != '\n') with
    | [] => none
    | _ :: rest => lineAfter n rest

def Source.line? (s : Source) (number : Nat) : Option String :=
  match number with
  | 0 => none
  | n + 1 => (lineAfter n s.text).map String.ofList

def spaces (n : Nat) : String := String.ofList (List.replicate n ' ')

/-- A line of the source with a caret below the column. -/
def excerpt (line : String) (number col : Nat) : String :=
  let shown := toString number
  " " ++ shown ++ " | " ++ line ++ "\n "
    ++ spaces shown.length ++ " | " ++ spaces (col - 1) ++ "^\n"

def Entry.render (e : Entry) (source : Source) : String :=
  match e.pos? with
  | none => "??: " ++ e.severity.name ++ ": " ++ e.message ++ "\n"
  | some pos =>
    let head := pos.shown ++ ": " ++ e.severity.name ++ ": " ++ e.message ++ "\n"
    if pos.file = source.label then
      match source.line? pos.line with
      | some line => head ++ excerpt line pos.line pos.col
      | none => head
    else head

def Breadcrumb.render (b : Breadcrumb) : String :=
  "  at " ++ b.pos.shown ++ " (" ++ b.label ++ ")\n"

def Diagnostic.render (d : Diagnostic) (source : Source) : String :=
  String.join (d.entries.map (·.render source)) ++ String.join (d.trace.map (·.render))

def renderAll (ds : List Diagnostic) (source : Source) : String :=
  String.intercalate "\n" (ds.map (·.render source))

end NamespaceLang
