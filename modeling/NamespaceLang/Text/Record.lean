import NamespaceLang.Text.Quoted

/-!
# Records as text

A record has a name and named fields, a case has a name and one part, a list
has items. Written on one line, fields and items stand behind one another;
written as a block, each stands on a line of its own, four columns further in,
with a comma after it.
-/

set_option autoImplicit false

namespace NamespaceLang.Text

inductive Record where
  | word (text : String)
  | case (name : String) (part : Record)
  | list (items : List Record)
  | fields (name : String) (parts : List (String × Record))
  deriving Repr, Inhabited

namespace Record

def number (n : Nat) : Record := .word (toString n)

def string (text : String) : Record := .word (quoted text)

def option (part : Option Record) : Record :=
  match part with
  | none => .word "None"
  | some part => .case "Some" part

mutual

def line : Record → String
  | .word text => text
  | .case name part => name ++ "(" ++ part.line ++ ")"
  | .list items => "[" ++ itemsLine items ++ "]"
  | .fields name parts => name ++ " \x7b " ++ fieldsLine parts ++ " \x7d"

def itemsLine : List Record → String
  | [] => ""
  | [item] => item.line
  | item :: next :: rest => item.line ++ ", " ++ itemsLine (next :: rest)

def fieldsLine : List (String × Record) → String
  | [] => ""
  | [(name, part)] => name ++ ": " ++ part.line
  | (name, part) :: next :: rest => name ++ ": " ++ part.line ++ ", " ++ fieldsLine (next :: rest)

end

mutual

/-- Writes the record behind `before`, as a block whose last line begins with `margin`. -/
def writeBlock (margin before : String) : Record → String
  | .word text => before ++ text
  | .case name part =>
    let inner := margin ++ "    "
    part.writeBlock inner (before ++ name ++ "(\n" ++ inner) ++ ",\n" ++ margin ++ ")"
  | .list [] => before ++ "[]"
  | .list items => writeItems (margin ++ "    ") (before ++ "[\n") items ++ margin ++ "]"
  | .fields name parts =>
    writeFields (margin ++ "    ") (before ++ name ++ " \x7b\n") parts ++ margin ++ "\x7d"

def writeItems (margin before : String) : List Record → String
  | [] => before
  | item :: rest =>
    writeItems margin (item.writeBlock margin (before ++ margin) ++ ",\n") rest

def writeFields (margin before : String) : List (String × Record) → String
  | [] => before
  | (name, part) :: rest =>
    writeFields margin (part.writeBlock margin (before ++ margin ++ name ++ ": ") ++ ",\n") rest

end

def block (r : Record) : String := r.writeBlock "" ""

end Record

end NamespaceLang.Text
