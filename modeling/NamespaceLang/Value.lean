import NamespaceLang.InstrRef
import NamespaceLang.Registry

/-!
# Values

What is known while a text is worked out. An operand is a value that is known
already or the result of an instruction that has yet to run; with the shape
that was found for it, it is all that an expression gives.
-/

set_option autoImplicit false

namespace NamespaceLang

inductive Value where
  | void
  | key (key : Key)
  | ast (thunk : Thunk)
  | namespace (target : NamespaceRef)
  | type (shape : Shape)
  | aggregate (registry : Registry)
  deriving Repr, Inhabited

inductive Operand where
  | known (value : Value)
  | deferred (ref : InstrRef)
  deriving Repr, Inhabited

structure Analysis where
  value : Operand
  shape : Shape
  deriving Repr, Inhabited

namespace Value

def kind : Value → String
  | .void => "void"
  | .key _ => "key"
  | .ast _ => "ast"
  | .namespace _ => "namespace"
  | .type _ => "type"
  | .aggregate _ => "namespace aggregate"

/-- The declared namespaces that the value gives access to. Source kept as it was written gives
access to none, not even to those around it. -/
def namespaces : Value → List NamespaceId
  | .void | .ast _ => []
  | .key known => (Shape.ofKey known).namespaces
  | .namespace target => (Shape.namespaceOf target).namespaces
  | .type shape => shape.namespaces
  | .aggregate registry => registry.entries.flatMap fun entry => (Shape.ofKey entry.key).namespaces

end Value

namespace Operand

def namespaces : Operand → List NamespaceId
  | .known value => value.namespaces
  | .deferred _ => []

end Operand

namespace Analysis

def known (value : Value) (shape : Shape) : Analysis := ⟨.known value, shape⟩

def deferred (ref : InstrRef) (shape : Shape) : Analysis := ⟨.deferred ref, shape⟩

def ofNamespace (target : NamespaceRef) : Analysis :=
  known (.namespace target) (.namespaceOf target)

def namespaces (a : Analysis) : List NamespaceId := a.value.namespaces ++ a.shape.namespaces

end Analysis

end NamespaceLang
