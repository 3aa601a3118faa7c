import NamespaceLang.Body.Basic
import NamespaceLang.Instr.Block

/-!
# The store of namespaces

Every namespace that was ever begun has its place in the store. It keeps its
definitions, its fields once its body is read to the end, and what was found
out about each of them when it was first asked for.

A namespace lives as long as something that lives gives access to it: what is
held from outside, or a finding of a living namespace. Source that was written
inside a namespace does not keep it.
-/

set_option autoImplicit false

namespace NamespaceLang

structure Forced where
  value : Value
  shape : Shape
  deriving Repr, Inhabited

/-- What can be asked for in one namespace. A definition and a field of one name are two things. -/
inductive Binding where
  | definition (name : String)
  | field (key : FieldKey)
  deriving DecidableEq, Repr, Inhabited

structure Namespace where
  pos : Position
  outer : Scope
  definitions : Definitions
  /-- None while the body is being read. -/
  fields? : Option Registry
  findings : Table Binding Forced
  deriving Repr

structure Store where
  diagnostics : List Diagnostic
  nextBlock : BlockId
  namespaces : Array Namespace
  deriving Repr

namespace Forced

def analysis (f : Forced) : Analysis := .known f.value f.shape

def namespaces (f : Forced) : List NamespaceId := f.value.namespaces ++ f.shape.namespaces

end Forced

namespace Binding

def label : Binding → String
  | .definition name => name
  | .field key => key.shown

end Binding

namespace Namespace

instance : Inhabited Namespace := ⟨⟨.compiler, [], .empty, none, .empty⟩⟩

def field? (n : Namespace) (key : FieldKey) : Option FieldEntry :=
  n.fields?.bind (·.get? key)

def keeps (n : Namespace) : List NamespaceId := n.findings.values.flatMap Forced.namespaces

def sources (n : Namespace) : List (List Tree) :=
  n.definitions.values.map (·.value)
    ++ ((n.fields?.map (·.entries)).getD []).map (·.thunk.nodes)

end Namespace

def sourceBound : List (List Tree) → Nat
  | [] => 0
  | nodes :: rest => Tree.weightAll nodes + 1 + sourceBound rest

namespace Store

def empty : Store := ⟨[], 0, #[]⟩

def ofDiagnostics (ds : List Diagnostic) : Store := { empty with diagnostics := ds }

def record (s : Store) (ds : List Diagnostic) : Store :=
  { s with diagnostics := s.diagnostics ++ ds }

def newBlock (s : Store) : Block × Store :=
  (.new s.nextBlock, { s with nextBlock := s.nextBlock + 1 })

def get (s : Store) (id : NamespaceId) : Namespace := s.namespaces[id]?.getD default

def begin (s : Store) (pos : Position) (outer : Scope) (definitions : Definitions) :
    NamespaceId × Store :=
  (s.namespaces.size,
    { s with namespaces := s.namespaces.push ⟨pos, outer, definitions, none, .empty⟩ })

def modify (s : Store) (id : NamespaceId) (f : Namespace → Namespace) : Store :=
  { s with namespaces := s.namespaces.modify id f }

def finish (s : Store) (id : NamespaceId) (registry : Registry) : Store :=
  s.modify id fun n => { n with fields? := some registry.lock }

def keep (s : Store) (id : NamespaceId) (binding : Binding) (found : Forced) : Store :=
  s.modify id fun n => { n with findings := n.findings.put binding found }

def scopeOf (s : Store) (id : NamespaceId) : Scope := id :: (s.get id).outer

def supported (s : Store) (held ids : List NamespaceId) : List NamespaceId :=
  let kept := held ++ ids.flatMap fun id => (s.get id).keeps
  ids.filter (kept.contains ·)

/-- Leaves out what is not supported by what is left, at most so many times. -/
def supportedFrom (s : Store) (held : List NamespaceId) : Nat → List NamespaceId → List NamespaceId
  | 0, ids => ids
  | rounds + 1, ids =>
    let left := s.supported held ids
    if left.length = ids.length then ids else s.supportedFrom held rounds left

/-- The living namespaces: the most that support one another from what is held. -/
def alive (s : Store) (held : List NamespaceId) : List NamespaceId :=
  s.supportedFrom held s.namespaces.size (List.range s.namespaces.size)

def isAlive (s : Store) (held : List NamespaceId) (id : NamespaceId) : Bool :=
  held.contains id || (s.alive held).contains id

/-- At most so many bindings stand in the store and in the source that it keeps: each has its
source, and one that is written inside another takes a node of it at least. -/
def bindingBound (s : Store) : Nat :=
  sourceBound (s.namespaces.toList.flatMap Namespace.sources)

end Store

end NamespaceLang
