/-!
# Sets of characters as ranges of code points

A standard gives a character property as a list of ranges, each with its first
and its last code point. A set of characters is such a list.
-/

set_option autoImplicit false

namespace NamespaceLang.Text

abbrev Ranges := List (Nat × Nat)

def Ranges.covers (ranges : Ranges) (c : Char) : Bool :=
  ranges.any fun (first, last) => first ≤ c.toNat && c.toNat ≤ last

end NamespaceLang.Text
