import NamespaceLang.Tree.Builder

/-!
# The tree of a text

Lexemes are taken one after the other and placed as they come. Reading never
fails: problems are collected, and there is always a tree.
-/

set_option autoImplicit false

namespace NamespaceLang

structure Tokenized where
  nodes : List Tree
  diagnostics : List Diagnostic
  deriving Repr

def Builder.run (b : Builder) (c : Cursor) : Builder × Cursor :=
  match _h : c.take? with
  | none => (b, c)
  | some (first, after) =>
    let lexed := Lexeme.next b.mode first after
    let placed := b.place lexed.1 c.position lexed.2
    if placed.stopped then (placed, lexed.2) else placed.run lexed.2
termination_by c.rest.length
decreasing_by
  exact Nat.lt_of_le_of_lt (Lexeme.next_shorter b.mode first after) (c.take?_shorter after first _h)

def tokenize (file : String) (text : List Char) : Tokenized :=
  let (b, c) := Builder.empty.run (.start file text)
  let b := b.finish c.position
  ⟨b.items.toList, b.diagnostics⟩

end NamespaceLang
