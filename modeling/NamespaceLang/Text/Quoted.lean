import NamespaceLang.Text.Printable
import NamespaceLang.Text.Extending

/-!
# Quoted text

Messages and tree dumps show a character or a text between quotes. The quote
itself, the backslash and five controls are written as two characters; what
would not show on its own, or would attach to the character before it, is
written by its code point.
-/

set_option autoImplicit false

namespace NamespaceLang.Text

def hexDigits (n : Nat) : List Char := Nat.toDigits 16 n

def codePoint (c : Char) : List Char :=
  ['\\', 'u', Char.ofNat 0x7b] ++ hexDigits c.toNat ++ [Char.ofNat 0x7d]

/-- The written form of `c` inside quotes of the kind `quote`. -/
def escape (quote c : Char) : List Char :=
  if c = '\x00' then ['\\', '0']
  else if c = '\t' then ['\\', 't']
  else if c = '\r' then ['\\', 'r']
  else if c = '\n' then ['\\', 'n']
  else if c = '\\' || c = quote then ['\\', c]
  else if isExtending c || !isPrintable c then codePoint c
  else [c]

def escapeAll (quote : Char) : List Char → List Char
  | [] => []
  | c :: rest => escape quote c ++ escapeAll quote rest

def quoted (text : String) : String :=
  String.ofList ('\"' :: escapeAll '\"' text.toList ++ ['\"'])

def quotedChar (c : Char) : String :=
  String.ofList ('\'' :: escape '\'' c ++ ['\''])

end NamespaceLang.Text
