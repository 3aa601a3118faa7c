/-!
# References to instructions

An instruction is named by its block and its place there, and its result by the
same reference.
-/

set_option autoImplicit false

namespace NamespaceLang

abbrev BlockId := Nat

structure InstrRef where
  block : BlockId
  index : Nat
  deriving DecidableEq, Repr, Inhabited

def InstrRef.shown (r : InstrRef) : String :=
  "%" ++ toString r.block ++ "." ++ toString r.index

end NamespaceLang
