import NamespaceLang.Analysis.Basic
import NamespaceLang.Tree.Tokenize

/-!
# Compiling a file

A file is the body of a namespace. Its entry point is the field under the
symbol `main`, which is called with nothing. What goes wrong on the way is
recorded, and the shape of the entry point is kept once there is one.
-/

set_option autoImplicit false

namespace NamespaceLang

structure Compiled where
  nodes : List Tree
  store : Store
  entryShape? : Option Shape
  /-- Whether the work came to its end. -/
  settled : Bool
  deriving Repr

namespace Compiled

def diagnostics (c : Compiled) : List Diagnostic := c.store.diagnostics

def isClean (c : Compiled) : Bool := c.diagnostics.isEmpty

end Compiled

def runEntry (pos : Position) (nodes : List Tree) : Run Shape := do
  let root ← declare [] pos nodes
  Run.holding [root] <| Run.inNewBlock do
    match ← Run.within "entry point" pos (readSymbol (.declared root) .main .mainEntry) with
    | none => Run.fail (.error pos .noEntryPoint)
    | some main =>
      Run.attempt do
        let _ ← call pos main fun _ => Run.deferred .void pos .void
        let _ ← Run.evaluate
      return main.shape

def compile (label : String) (text : List Char) : Compiled :=
  let read := tokenize label text
  let (outcome, store) :=
    (Store.ofDiagnostics read.diagnostics).perform (runEntry (.start label) read.nodes)
  match outcome with
  | .done shape => ⟨read.nodes, store, some shape, true⟩
  | .failed d => ⟨read.nodes, store.record [d], none, true⟩
  | .exhausted => ⟨read.nodes, store, none, false⟩

end NamespaceLang
