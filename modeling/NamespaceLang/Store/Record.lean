import NamespaceLang.Store
import NamespaceLang.Tree.Record

/-!
# Namespaces as records

One line for a namespace: where it stands and how much of it is known by now.
-/

set_option autoImplicit false

namespace NamespaceLang

open Text (Record)

def Namespace.record (n : Namespace) : Record :=
  .fields "DeclaredNamespace" [("pos", n.pos.record), ("definitions", .number n.definitions.size),
    ("fields", .option (n.fields?.map fun r => .number r.size)),
    ("forced", .number n.findings.size)]

def Store.describe (s : Store) : NamespaceRef → String
  | .builtin => "BuiltinNamespace"
  | .declared id => (s.get id).record.line

end NamespaceLang
