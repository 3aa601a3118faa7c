import NamespaceLang.Analysis.Expression

/-!
# Analysis

What can be asked of a store. Looking into one binding may need others, which
may need others again, but none needs itself; so the bindings in the store and
in the source at hand bound how far this goes.
-/

set_option autoImplicit false

namespace NamespaceLang

/-- Works with as much depth as the store and the nodes at hand can need. -/
def withForcing {α : Type} (nodes : List Tree) (act : Forcing → Run α) : Run α := do
  act (forceWithin ((← Run.store).bindingBound + Tree.weightAll nodes + 1))

def analyze (scope : Scope) (slot : Shape) (pos : Position) (nodes : List Tree) : Run Analysis :=
  withForcing nodes fun force => analyzeWith force scope slot pos nodes

def declare (outer : Scope) (pos : Position) (nodes : List Tree) : Run NamespaceId :=
  withForcing nodes fun force => declareWith force outer pos nodes

def resolve (scope : Scope) (pos : Position) (name : String) (slot : Shape) : Run Analysis :=
  withForcing [] fun force => resolveWith force pos name slot scope

def readString (target : NamespaceRef) (pos : Position) (name : String) : Run Analysis :=
  withForcing [] fun force => readStringWith force target pos name

def readSymbol (target : NamespaceRef) (builtin : Builtin) (slot : Shape) :
    Run (Option Analysis) :=
  withForcing [] fun force => readSymbolWith force target builtin slot

/-- What a piece of work does to a store, begun where nothing else is. -/
def Store.perform {α : Type} (s : Store) (act : Run α) : Outcome α × Store :=
  let (outcome, after) := act .start ⟨s, .new s.nextBlock⟩
  (outcome, after.store)

end NamespaceLang
