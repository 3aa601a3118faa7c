/-!
# Classes of characters

Identifiers are runs of ASCII letters and digits. Operator characters glue
together into one run; single characters are always a token of their own.
-/

set_option autoImplicit false

namespace NamespaceLang.Letters

def operators : List Char := "~!@$%^&*-=+|/<>:".toList

def singles : List Char := "()[]\x7b\x7d,;\"'.`".toList

def isIdentifier (c : Char) : Bool := c.isAlphanum

def isOperator (c : Char) : Bool := operators.contains c

def isSingle (c : Char) : Bool := singles.contains c

def builtinSign : Char := '#'

def accessSign : Char := '.'

theorem singles_apart (c : Char) (h : c ∈ singles) : isOperator c = false ∧ isIdentifier c = false := by
  have apart : singles.all (fun c => !isOperator c && !isIdentifier c) = true := by decide
  simpa using List.all_eq_true.1 apart c h

end NamespaceLang.Letters
