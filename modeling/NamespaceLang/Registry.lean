import NamespaceLang.Shape
import NamespaceLang.Tree

/-!
# Field registries

The fields of a namespace, in the order in which they were declared. The first
declaration of a key stands. A field's body is kept as it was written, together
with the scope that its names are looked up in.
-/

set_option autoImplicit false

namespace NamespaceLang

/-- The namespaces that a piece of source stands in, innermost first. -/
abbrev Scope := List NamespaceId

structure Thunk where
  nodes : List Tree
  pos : Position
  scope : Scope
  deriving Repr, Inhabited

structure FieldEntry where
  key : Key
  thunk : Thunk
  pos : Position
  deriving Repr, Inhabited

structure Registry where
  locked : Bool
  entries : List FieldEntry
  deriving Repr, Inhabited

namespace Registry

def empty : Registry := ⟨false, []⟩

def size (r : Registry) : Nat := r.entries.length

def keys (r : Registry) : List FieldKey := r.entries.map (·.key.field)

def get? (r : Registry) (key : FieldKey) : Option FieldEntry :=
  r.entries.find? fun entry => entry.key.field = key

/-- Adds an entry, or says which one has taken its key. -/
def insert (r : Registry) (entry : FieldEntry) : Except FieldEntry Registry :=
  match r.get? entry.key.field with
  | some taken => .error taken
  | none => .ok { r with entries := r.entries ++ [entry] }

def lock (r : Registry) : Registry := { r with locked := true }

@[simp] theorem get?_lock (r : Registry) (key : FieldKey) : r.lock.get? key = r.get? key := rfl

@[simp] theorem entries_lock (r : Registry) : r.lock.entries = r.entries := rfl

theorem get?_eq_none_iff (r : Registry) (key : FieldKey) : r.get? key = none ↔ key ∉ r.keys := by
  simp [get?, keys, List.find?_eq_none]

theorem insert_eq_ok_iff (r r' : Registry) (entry : FieldEntry) :
    r.insert entry = .ok r' ↔
      entry.key.field ∉ r.keys ∧ r' = { r with entries := r.entries ++ [entry] } := by
  rw [← get?_eq_none_iff, insert]
  cases r.get? entry.key.field with
  | none => simp [eq_comm]
  | some taken => simp

theorem insert_eq_error_iff (r : Registry) (entry taken : FieldEntry) :
    r.insert entry = .error taken ↔ r.get? entry.key.field = some taken := by
  rw [insert]
  cases r.get? entry.key.field <;> simp

end Registry

end NamespaceLang
