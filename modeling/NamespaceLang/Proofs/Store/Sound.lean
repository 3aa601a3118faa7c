import NamespaceLang.Proofs.Instr.Evaluation
import NamespaceLang.Store

/-!
# Sound stores

All source that a store keeps is orderly and stands in scopes that were begun.
What was found out about a binding is no function, and a key where its shape
says so.
-/

set_option autoImplicit false

namespace NamespaceLang

namespace Shape

def isFunction : Shape → Bool
  | .function .. => true
  | _ => false

/-- Whether a value of the shape is a key that is known. -/
def isKnownKey (shape : Shape) : Bool := shape.key?.isSome

end Shape

def Value.isKey : Value → Bool
  | .key _ => true
  | _ => false

structure Forced.Sound (f : Forced) : Prop where
  noFunction : f.shape.isFunction = false
  key : f.shape.isKnownKey = true → f.value.isKey = true

structure Namespace.Sound (n : Nat) (own : Namespace) : Prop where
  outer : Begun n own.outer
  definitions : ∀ found ∈ own.definitions.values, Orderly found.value
  fields : ∀ registry, own.fields? = some registry → ∀ entry ∈ registry.entries, entry.thunk.Sound n
  findings : ∀ found ∈ own.findings.values, found.Sound

theorem Namespace.Sound.mono {n m : Nat} {own : Namespace} (h : own.Sound n) (hn : n ≤ m) :
    own.Sound m where
  outer := h.outer.mono hn
  definitions := h.definitions
  fields registry hr entry hm := (h.fields registry hr entry hm).mono hn
  findings := h.findings

theorem Namespace.sound_default (n : Nat) : (default : Namespace).Sound n where
  outer _ hm := by cases hm
  definitions _ hm := by cases hm
  fields _ hr := by cases hr
  findings _ hm := by cases hm

namespace Store

def size (s : Store) : Nat := s.namespaces.size

def Sound (s : Store) : Prop := ∀ own ∈ s.namespaces.toList, own.Sound s.size

theorem sound_ofDiagnostics (ds : List Diagnostic) : (Store.ofDiagnostics ds).Sound := by
  simp [Sound, ofDiagnostics, empty]

variable {s : Store}

theorem Sound.get (h : s.Sound) (id : NamespaceId) : (s.get id).Sound s.size := by
  unfold Store.get
  cases hid : s.namespaces[id]? with
  | none => exact Namespace.sound_default _
  | some own =>
    rw [← Array.getElem?_toList] at hid
    exact h own (List.mem_of_getElem? hid)

theorem Sound.field (h : s.Sound) {id : NamespaceId} {key : FieldKey} {entry : FieldEntry}
    (hf : (s.get id).field? key = some entry) : entry.thunk.Sound s.size := by
  obtain ⟨registry, hr, he⟩ := Option.bind_eq_some_iff.1 hf
  exact (h.get id).fields registry hr entry (List.mem_of_find?_eq_some he)

theorem Sound.definition (h : s.Sound) {id : NamespaceId} {name : String} {found : Definition}
    (hd : (s.get id).definitions.get? name = some found) :
    (⟨found.value, found.pos, s.scopeOf id⟩ : Thunk).Sound s.size where
  nodes := (h.get id).definitions found (Table.mem_values_of_get? hd)
  scope := by
    intro other hm
    rcases List.mem_cons.1 hm with rfl | hm
    · by_cases hid : other < s.size
      · exact hid
      · have none_there : s.get other = default := by
          rw [Store.get, Array.getElem?_eq_none (Nat.le_of_not_lt hid)]
          rfl
        rw [none_there] at hd
        cases hd
    · exact (h.get id).outer other hm

theorem Sound.begin (h : s.Sound) (pos : Position) {outer : Scope} {definitions : Definitions}
    (ho : Begun s.size outer) (hd : ∀ found ∈ definitions.values, Orderly found.value) :
    (s.begin pos outer definitions).2.Sound := by
  have grown : (s.begin pos outer definitions).2.size = s.size + 1 := by simp [Store.begin, size]
  unfold Sound
  rw [grown]
  intro own hm
  simp only [Store.begin, Array.toList_push, List.mem_append, List.mem_singleton] at hm
  rcases hm with hm | rfl
  · exact (h own hm).mono (Nat.le_succ _)
  · exact ⟨ho.mono (Nat.le_succ _), hd, fun _ hr => (by cases hr),
      fun _ hf => (by cases hf)⟩

theorem size_modify (id : NamespaceId) (f : Namespace → Namespace) : (s.modify id f).size = s.size := by
  simp [modify, size]

theorem Sound.modify (h : s.Sound) (id : NamespaceId) {f : Namespace → Namespace}
    (hf : ∀ own, own.Sound s.size → (f own).Sound s.size) : (s.modify id f).Sound := by
  unfold Sound
  rw [size_modify]
  intro own hm
  obtain ⟨i, hi⟩ := List.mem_iff_getElem?.1 hm
  rw [Array.getElem?_toList, Store.modify, Array.getElem?_modify] at hi
  split at hi
  · obtain ⟨before, hb, rfl⟩ := Option.map_eq_some_iff.1 hi
    rw [← Array.getElem?_toList] at hb
    exact hf before (h before (List.mem_of_getElem? hb))
  · rw [← Array.getElem?_toList] at hi
    exact h own (List.mem_of_getElem? hi)

theorem Sound.finish (h : s.Sound) (id : NamespaceId) {registry : Registry}
    (hr : registry.Open s.size) : (s.finish id registry).Sound := by
  apply h.modify
  intro own ho
  refine ⟨ho.outer, ho.definitions, fun r he => ?_, ho.findings⟩
  cases he
  exact hr.2

theorem Sound.keep (h : s.Sound) (id : NamespaceId) (binding : Binding) {found : Forced}
    (hf : found.Sound) : (s.keep id binding found).Sound := by
  apply h.modify
  intro own ho
  refine ⟨ho.outer, ho.definitions, ho.fields, fun f hm => ?_⟩
  rcases Table.mem_values_put _ _ _ f hm with rfl | hm
  · exact hf
  · exact ho.findings f hm

end Store

end NamespaceLang
