/-!
# The builtin namespace

One namespace is there from the start. Its fields are symbols: keys that differ
from every string key and from one another.
-/

set_option autoImplicit false

namespace NamespaceLang

inductive Builtin where
  | main
  deriving DecidableEq, Repr, Inhabited

namespace Builtin

def namespaceName : String := "builtin"

def all : List Builtin := [.main]

def name : Builtin → String
  | .main => "main"

def ofName? (text : String) : Option Builtin := all.find? (·.name == text)

def shown (b : Builtin) : String := "#" ++ namespaceName ++ "." ++ b.name

theorem ofName?_name (b : Builtin) : ofName? b.name = some b := by
  cases b
  decide

end Builtin

end NamespaceLang
