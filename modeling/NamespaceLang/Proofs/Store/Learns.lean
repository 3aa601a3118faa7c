import NamespaceLang.Proofs.Store.Sound

/-!
# Stores that learn

What a store comes to know about a namespace is kept: the definitions are there
from the beginning, the fields do not change once they are there, and no finding
is replaced. Work that began in a store may give fields to a namespace only
after it has begun that namespace itself.
-/

set_option autoImplicit false

namespace NamespaceLang

namespace Namespace

/-- The same namespace, with more found out about its bindings. -/
structure Learns (own later : Namespace) : Prop where
  pos : later.pos = own.pos
  outer : later.outer = own.outer
  definitions : later.definitions = own.definitions
  fields : later.fields? = own.fields?
  findings : ∀ binding found, own.findings.get? binding = some found →
    later.findings.get? binding = some found

theorem Learns.refl (own : Namespace) : own.Learns own := ⟨rfl, rfl, rfl, rfl, fun _ _ h => h⟩

theorem Learns.trans {own mid later : Namespace} (h : own.Learns mid) (h' : mid.Learns later) :
    own.Learns later where
  pos := h'.pos.trans h.pos
  outer := h'.outer.trans h.outer
  definitions := h'.definitions.trans h.definitions
  fields := h'.fields.trans h.fields
  findings binding found hf := h'.findings binding found (h.findings binding found hf)

theorem Learns.field? {own later : Namespace} (h : own.Learns later) (key : FieldKey) :
    later.field? key = own.field? key := by
  rw [Namespace.field?, Namespace.field?, h.fields]

end Namespace

namespace Store

@[simp] theorem get_record (s : Store) (ds : List Diagnostic) : (s.record ds).get = s.get := rfl

@[simp] theorem size_record (s : Store) (ds : List Diagnostic) : (s.record ds).size = s.size := rfl

@[simp] theorem get_newBlock (s : Store) : s.newBlock.2.get = s.get := rfl

@[simp] theorem size_newBlock (s : Store) : s.newBlock.2.size = s.size := rfl

@[simp] theorem size_begin (s : Store) (pos : Position) (outer : Scope) (definitions : Definitions) :
    (s.begin pos outer definitions).2.size = s.size + 1 := by
  simp [Store.begin, size]

theorem get_begin (s : Store) (pos : Position) (outer : Scope) (definitions : Definitions)
    (id : NamespaceId) :
    (s.begin pos outer definitions).2.get id =
      if id = s.size then ⟨pos, outer, definitions, none, .empty⟩ else s.get id := by
  by_cases last : id = s.size
  · rw [if_pos last, get]
    simp only [Store.begin]
    rw [Array.getElem?_push, if_pos (show id = s.namespaces.size from last), Option.getD_some]
  · rw [if_neg last, get]
    simp only [Store.begin]
    rw [Array.getElem?_push, if_neg (show id ≠ s.namespaces.size from last), get]

theorem get_of_size_le {s : Store} {id : NamespaceId} (h : s.size ≤ id) : s.get id = default := by
  rw [get, Array.getElem?_eq_none h]
  rfl

theorem get_modify (s : Store) (id other : NamespaceId) (f : Namespace → Namespace) :
    (s.modify id f).get other =
      if other = id ∧ other < s.size then f (s.get other) else s.get other := by
  simp only [modify, get, size, Array.getElem?_modify]
  by_cases same : id = other
  · subst same
    by_cases inside : id < s.namespaces.size
    · simp [inside]
    · simp [inside]
  · simp [same, Ne.symm same]

theorem get_modify_of_ne (s : Store) {id other : NamespaceId} (h : other ≠ id)
    (f : Namespace → Namespace) : (s.modify id f).get other = s.get other := by
  rw [get_modify, if_neg (fun both => h both.1)]

structure Learns (s later : Store) : Prop where
  size : s.size ≤ later.size
  each : ∀ id < s.size, (s.get id).Learns (later.get id)

namespace Learns

variable {s mid later : Store}

theorem refl (s : Store) : s.Learns s := ⟨Nat.le_refl _, fun _ _ => .refl _⟩

theorem trans (h : s.Learns mid) (h' : mid.Learns later) : s.Learns later where
  size := Nat.le_trans h.size h'.size
  each id hid := (h.each id hid).trans (h'.each id (Nat.lt_of_lt_of_le hid h.size))

theorem record (s : Store) (ds : List Diagnostic) : s.Learns (s.record ds) :=
  ⟨Nat.le_refl _, fun id _ => .refl (s.get id)⟩

theorem newBlock (s : Store) : s.Learns s.newBlock.2 :=
  ⟨Nat.le_refl _, fun id _ => .refl (s.get id)⟩

theorem begin (s : Store) (pos : Position) (outer : Scope) (definitions : Definitions) :
    s.Learns (s.begin pos outer definitions).2 where
  size := by rw [size_begin]; exact Nat.le_succ _
  each id hid := by
    rw [get_begin, if_neg (Nat.ne_of_lt hid)]
    exact .refl _

theorem finish (h : s.Learns mid) {id : NamespaceId} (fresh : s.size ≤ id) (registry : Registry) :
    s.Learns (mid.finish id registry) where
  size := by rw [Store.finish, size_modify]; exact h.size
  each other hid := by
    have older : other ≠ id := Nat.ne_of_lt (Nat.lt_of_lt_of_le hid fresh)
    rw [Store.finish, get_modify_of_ne _ older]
    exact h.each other hid

theorem keep (s : Store) {id : NamespaceId} {binding : Binding}
    (none_yet : (s.get id).findings.get? binding = none) (found : Forced) :
    s.Learns (s.keep id binding found) where
  size := Nat.le_of_eq (s.size_modify id _).symm
  each other hid := by
    rw [Store.keep, get_modify]
    split
    · next same =>
      obtain ⟨rfl, -⟩ := same
      refine ⟨rfl, rfl, rfl, rfl, fun b f hf => ?_⟩
      rw [Table.get?_put]
      split
      · next same =>
        rw [← same, none_yet] at hf
        cases hf
      · exact hf
    · exact .refl _

end Learns

theorem get?_keep (s : Store) (id other : NamespaceId) (binding b : Binding) (found : Forced) :
    ((s.keep id binding found).get other).findings.get? b =
      if other = id ∧ other < s.size ∧ binding = b then some found
      else (s.get other).findings.get? b := by
  rw [keep, get_modify]
  by_cases there : other = id ∧ other < s.size
  · rw [if_pos there]
    dsimp only
    rw [Table.get?_put]
    by_cases same : binding = b
    · rw [if_pos same, if_pos ⟨there.1, there.2, same⟩]
    · rw [if_neg same, if_neg (fun all => same all.2.2)]
  · rw [if_neg there, if_neg (fun all => there ⟨all.1, all.2.1⟩)]

theorem findings_finish (s : Store) (id other : NamespaceId) (registry : Registry) :
    ((s.finish id registry).get other).findings = (s.get other).findings := by
  rw [finish, get_modify]
  split <;> rfl

theorem findings_begin (s : Store) (pos : Position) (outer : Scope) (definitions : Definitions)
    (id : NamespaceId) :
    ((s.begin pos outer definitions).2.get id).findings = (s.get id).findings := by
  rw [get_begin]
  split
  · next same => rw [same, get_of_size_le (Nat.le_refl _)]; rfl
  · rfl

end Store

end NamespaceLang
