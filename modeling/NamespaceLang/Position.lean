/-!
# Positions

A place in a named file. The offset counts bytes of the text in UTF-8; lines
and columns start at one, and a column counts characters.
-/

set_option autoImplicit false

namespace NamespaceLang

structure Position where
  file : String
  offset : Nat
  line : Nat
  col : Nat
  deriving DecidableEq, Repr, Inhabited

namespace Position

def start (file : String) : Position := ⟨file, 0, 1, 1⟩

/-- For what has no place in any source. -/
def compiler : Position := ⟨"compiler", 0, 0, 0⟩

def shown (p : Position) : String :=
  p.file ++ ":" ++ toString p.line ++ ":" ++ toString p.col

end Position

end NamespaceLang
