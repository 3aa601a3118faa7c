/-!
# Tags of tree nodes

What a block, a chain of operators, an identifier or a bare mark stands for.
-/

set_option autoImplicit false

namespace NamespaceLang

inductive BlockTag where
  | list
  | code
  | map
  | colonCall
  | arrowFunction
  | string
  | untagged
  deriving DecidableEq, Repr, Inhabited

inductive ChainTag where
  | separator
  | sequence
  | definition
  | publicBinding
  | variableBinding
  | assignment
  deriving DecidableEq, Repr, Inhabited

/-- How an identifier was spelled: `name`, `.name` or `#name`. -/
inductive Sigil where
  | plain
  | access
  | builtin
  deriving DecidableEq, Repr, Inhabited

inductive BareTag where
  | access
  | result
  | discard
  deriving DecidableEq, Repr, Inhabited

def BlockTag.name : BlockTag → String
  | .list => "List"
  | .code => "Code"
  | .map => "Map"
  | .colonCall => "ColonCall"
  | .arrowFunction => "ArrowFn"
  | .string => "String"
  | .untagged => "None"

def ChainTag.name : ChainTag → String
  | .separator => "Separator"
  | .sequence => "Sequence"
  | .definition => "Definition"
  | .publicBinding => "PublicBinding"
  | .variableBinding => "VariableBinding"
  | .assignment => "Assignment"

def Sigil.name : Sigil → String
  | .plain => "Plain"
  | .access => "Access"
  | .builtin => "Builtin"

def BareTag.name : BareTag → String
  | .access => "Access"
  | .result => "Return"
  | .discard => "Discard"

def BlockTag.all : List BlockTag :=
  [.list, .code, .map, .colonCall, .arrowFunction, .string, .untagged]

def ChainTag.all : List ChainTag :=
  [.separator, .sequence, .definition, .publicBinding, .variableBinding, .assignment]

def Sigil.all : List Sigil := [.plain, .access, .builtin]

def BareTag.all : List BareTag := [.access, .result, .discard]

def ChainTag.bindsField : ChainTag → Bool
  | .publicBinding | .variableBinding => true
  | _ => false

def BareTag.spelling : BareTag → String
  | .access => "."
  | .result => "->"
  | .discard => "_"

def BareTag.ofSpelling? (text : String) : Option BareTag :=
  BareTag.all.find? (·.spelling == text)

theorem BareTag.ofSpelling?_spelling (t : BareTag) : ofSpelling? t.spelling = some t := by
  cases t <;> decide

end NamespaceLang
