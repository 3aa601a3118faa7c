import NamespaceLang.Vocabulary.Builtin

/-!
# Keys and shapes

A shape says what an expression has to give. It tells the same text apart in
different places: a field's name before a binding mark is a key, what follows
the mark is kept as it stands.
-/

set_option autoImplicit false

namespace NamespaceLang

/-- What a field is looked up by. A symbol never equals a string. -/
inductive FieldKey where
  | string (name : String)
  | symbol (builtin : Builtin)
  deriving DecidableEq, Repr, Inhabited

def FieldKey.shown : FieldKey → String
  | .string name => "." ++ name
  | .symbol builtin => builtin.shown

abbrev NamespaceId := Nat

inductive NamespaceRef where
  | builtin
  | declared (id : NamespaceId)
  deriving DecidableEq, Repr, Inhabited

inductive Shape where
  | void
  | key
  | stringKey (name : String)
  /-- A symbol also fixes the shape of the value stored under it. -/
  | symbolKey (builtin : Builtin) (child : Shape)
  | ast
  | unknown
  | anyType
  | typeOf (inner : Shape)
  | anyNamespace
  | namespaceOf (target : NamespaceRef)
  | function (arg ret : Shape)
  | folderOrFile
  | tuple (parts : List Shape)
  deriving Repr, Inhabited

inductive Key where
  | string (name : String)
  | symbol (builtin : Builtin) (child : Shape)
  deriving Repr, Inhabited

namespace Shape

def mainEntry : Shape := .function .void .folderOrFile

def ofKey : Key → Shape
  | .string name => .stringKey name
  | .symbol builtin child => .symbolKey builtin child

def key? : Shape → Option Key
  | .stringKey name => some (.string name)
  | .symbolKey builtin child => some (.symbol builtin child)
  | _ => none

def isKey : Shape → Bool
  | .key | .stringKey _ | .symbolKey .. => true
  | _ => false

def kind : Shape → String
  | .void => "void"
  | .key | .stringKey _ | .symbolKey .. => "key"
  | .ast => "ast"
  | .unknown => "unknown"
  | .anyType | .typeOf _ => "type"
  | .anyNamespace | .namespaceOf _ => "namespace"
  | .function .. => "function"
  | .folderOrFile => "folder-or-file"
  | .tuple _ => "tuple"

mutual

def shown : Shape → String
  | .void => "void"
  | .key => "key"
  | .stringKey name => "key(" ++ (FieldKey.string name).shown ++ ")"
  | .symbolKey builtin _ => "key(" ++ builtin.shown ++ ")"
  | .ast => "ast"
  | .unknown => "unknown"
  | .anyType => "type"
  | .typeOf inner => "type(" ++ inner.shown ++ ")"
  | .anyNamespace | .namespaceOf _ => "namespace"
  | .function arg ret => "function(" ++ arg.shown ++ ") -> " ++ ret.shown
  | .folderOrFile => "folder-or-file"
  | .tuple parts => "tuple(" ++ shownAll parts ++ ")"

def shownAll : List Shape → String
  | [] => ""
  | [part] => part.shown
  | part :: next :: rest => part.shown ++ ", " ++ shownAll (next :: rest)

end

mutual

/-- The declared namespaces that a value of the shape gives access to. -/
def namespaces : Shape → List NamespaceId
  | .namespaceOf (.declared id) => [id]
  | .symbolKey _ child => child.namespaces
  | .typeOf inner => inner.namespaces
  | .function arg ret => arg.namespaces ++ ret.namespaces
  | .tuple parts => namespacesAll parts
  | _ => []

def namespacesAll : List Shape → List NamespaceId
  | [] => []
  | part :: rest => part.namespaces ++ namespacesAll rest

end

theorem key?_ofKey (key : Key) : (ofKey key).key? = some key := by
  cases key <;> rfl

theorem ofKey_of_key? {shape : Shape} {key : Key} (h : shape.key? = some key) :
    shape = ofKey key := by
  cases shape <;> simp_all [key?] <;> subst h <;> rfl

end Shape

namespace Key

def field : Key → FieldKey
  | .string name => .string name
  | .symbol builtin _ => .symbol builtin

def main : Key := .symbol .main .mainEntry

end Key

def Builtin.key : Builtin → Key
  | .main => .main

end NamespaceLang
