import NamespaceLang.Proofs.Store.Learns
import NamespaceLang.Proofs.Termination
import NamespaceLang.Store.Record
import Mathlib.Data.List.Forall2
import Mathlib.Data.List.Perm.Basic

/-!
# Stores that differ in an order

A namespace has its definitions and its fields in the order in which they were
declared. Where it has the same ones in another order, whatever is looked for by
its name is found as before, and so is everything that is worked out from that:
who is alive, and how much source there is. Each write to a store leaves it so.
-/

set_option autoImplicit false

namespace NamespaceLang

section

variable {α κ : Type} [DecidableEq κ]

theorem find?_of_perm (key : α → κ) {l l' : List α} (perm : l.Perm l')
    (distinct : (l.map key).Nodup) (k : κ) :
    l'.find? (fun a => key a = k) = l.find? (fun a => key a = k) := by
  induction perm with
  | nil => rfl
  | cons a _ ih =>
    rw [List.map_cons, List.nodup_cons] at distinct
    rw [List.find?_cons, List.find?_cons, ih distinct.2]
  | swap a b l =>
    have apart : key b ≠ key a := fun same => by simp [same] at distinct
    by_cases ha : key a = k
    · simp [ha, show key b ≠ k from fun hb => apart (hb.trans ha.symm)]
    · by_cases hb : key b = k <;> simp [ha, hb]
  | trans h _ ih ih' =>
    exact (ih' ((h.map key).nodup distinct)).trans (ih distinct)

namespace Table

variable {β : Type}

theorem find_eq (k : κ) (entries : List (κ × β)) :
    find k entries = (entries.find? (fun entry => entry.1 = k)).map (·.2) := by
  induction entries with
  | nil => rfl
  | cons entry rest ih =>
    obtain ⟨own, b⟩ := entry
    by_cases h : own = k
    · simp [find, h]
    · simp [find, h, ih]

/-- The same values under the same keys, in another order. -/
structure Reordered (t u : Table κ β) : Prop where
  entries : t.entries.Perm u.entries
  get? : ∀ k, u.get? k = t.get? k

theorem Reordered.refl (t : Table κ β) : t.Reordered t := ⟨.refl _, fun _ => rfl⟩

theorem Reordered.of_perm {t u : Table κ β} (entries : t.entries.Perm u.entries)
    (distinct : t.keys.Nodup) : t.Reordered u where
  entries := entries
  get? k := by
    rw [Table.get?, Table.get?, find_eq, find_eq, find?_of_perm _ entries distinct]

end Table

end

structure Registry.Reordered (r r' : Registry) : Prop where
  locked : r'.locked = r.locked
  entries : r.entries.Perm r'.entries
  get? : ∀ key, r'.get? key = r.get? key

namespace Registry

theorem Reordered.refl (r : Registry) : r.Reordered r := ⟨rfl, .refl _, fun _ => rfl⟩

theorem Reordered.of_perm {entries entries' : List FieldEntry} (perm : entries.Perm entries')
    (distinct : (entries.map (·.key.field)).Nodup) (locked : Bool) :
    (⟨locked, entries⟩ : Registry).Reordered ⟨locked, entries'⟩ :=
  ⟨rfl, perm, find?_of_perm (fun entry : FieldEntry => entry.key.field) perm distinct⟩

end Registry

/-- The same namespace but for the order of its definitions and of its fields. -/
structure Namespace.Reordered (n m : Namespace) : Prop where
  pos : m.pos = n.pos
  outer : m.outer = n.outer
  definitions : n.definitions.Reordered m.definitions
  fields : Option.Rel Registry.Reordered n.fields? m.fields?
  findings : m.findings = n.findings

namespace Namespace.Reordered

variable {n m : Namespace}

theorem refl (n : Namespace) : n.Reordered n where
  pos := rfl
  outer := rfl
  definitions := .refl _
  fields := by
    cases n.fields? with
    | none => exact .none
    | some registry => exact .some (.refl _)
  findings := rfl

theorem fields_cases (h : n.Reordered m) : (n.fields? = none ∧ m.fields? = none) ∨
    ∃ r r', n.fields? = some r ∧ m.fields? = some r' ∧ r.Reordered r' := by
  have own := h.fields
  generalize n.fields? = found, m.fields? = found' at own ⊢
  cases own with
  | none => exact Or.inl ⟨rfl, rfl⟩
  | some same => exact Or.inr ⟨_, _, rfl, rfl, same⟩

theorem finished (h : n.Reordered m) : m.fields?.isSome = n.fields?.isSome := by
  rcases h.fields_cases with ⟨hn, hm⟩ | ⟨r, r', hn, hm, -⟩
  · rw [hn, hm]
  · rw [hn, hm, Option.isSome_some, Option.isSome_some]

theorem field? (h : n.Reordered m) (key : FieldKey) : m.field? key = n.field? key := by
  unfold Namespace.field?
  rcases h.fields_cases with ⟨hn, hm⟩ | ⟨r, r', hn, hm, same⟩
  · rw [hn, hm]
  · rw [hn, hm]
    exact same.get? key

theorem keeps (h : n.Reordered m) : m.keeps = n.keeps := by
  rw [Namespace.keeps, Namespace.keeps, h.findings]

theorem sources (h : n.Reordered m) : n.sources.Perm m.sources := by
  refine ((h.definitions.entries.map _).map _).append (List.Perm.map _ ?_)
  rcases h.fields_cases with ⟨hn, hm⟩ | ⟨r, r', hn, hm, same⟩
  · rw [hn, hm]
  · rw [hn, hm]
    exact same.entries

theorem record (h : n.Reordered m) : m.record = n.record := by
  have definitions : m.definitions.size = n.definitions.size := h.definitions.entries.length_eq.symm
  rw [Namespace.record, Namespace.record, h.pos, definitions, h.findings]
  rcases h.fields_cases with ⟨hn, hm⟩ | ⟨r, r', hn, hm, same⟩
  · rw [hn, hm]
  · have fields : r'.size = r.size := same.entries.length_eq.symm
    rw [hn, hm, Option.map_some, Option.map_some, fields]

end Namespace.Reordered

theorem sourceBound_of_perm {l l' : List (List Tree)} (perm : l.Perm l') :
    sourceBound l' = sourceBound l := by
  induction perm with
  | nil => rfl
  | cons nodes _ ih => rw [sourceBound, sourceBound, ih]
  | swap nodes nodes' l =>
    simp only [sourceBound]
    omega
  | trans _ _ ih ih' => exact ih'.trans ih

structure Store.Reordered (s t : Store) : Prop where
  diagnostics : t.diagnostics = s.diagnostics
  nextBlock : t.nextBlock = s.nextBlock
  size : t.size = s.size
  each : ∀ id, (s.get id).Reordered (t.get id)

namespace Store.Reordered

variable {s t : Store}

theorem refl (s : Store) : s.Reordered s := ⟨rfl, rfl, rfl, fun id => .refl (s.get id)⟩

theorem scopeOf (h : s.Reordered t) (id : NamespaceId) : t.scopeOf id = s.scopeOf id := by
  rw [Store.scopeOf, Store.scopeOf, (h.each id).outer]

theorem describe (h : s.Reordered t) (target : NamespaceRef) :
    t.describe target = s.describe target := by
  cases target with
  | builtin => rfl
  | declared id => rw [Store.describe, Store.describe, (h.each id).record]

theorem supported (h : s.Reordered t) (held ids : List NamespaceId) :
    t.supported held ids = s.supported held ids := by
  have kept : (fun id => (t.get id).keeps) = fun id => (s.get id).keeps :=
    funext fun id => (h.each id).keeps
  rw [Store.supported, Store.supported, kept]

theorem supportedFrom (h : s.Reordered t) (held : List NamespaceId) (rounds : Nat)
    (ids : List NamespaceId) : t.supportedFrom held rounds ids = s.supportedFrom held rounds ids := by
  induction rounds generalizing ids with
  | zero => rfl
  | succ rounds ih => rw [Store.supportedFrom, Store.supportedFrom, h.supported, ih]

theorem isAlive (h : s.Reordered t) (held : List NamespaceId) (id : NamespaceId) :
    t.isAlive held id = s.isAlive held id := by
  have same : t.namespaces.size = s.namespaces.size := h.size
  rw [Store.isAlive, Store.isAlive, Store.alive, Store.alive, same, h.supportedFrom]

theorem bindingBound (h : s.Reordered t) : t.bindingBound = s.bindingBound := by
  have pairs : List.Forall₂ Namespace.Reordered s.namespaces.toList t.namespaces.toList := by
    refine List.forall₂_of_length_eq_of_get h.size.symm fun i hs ht => ?_
    have own := h.each i
    rw [Store.get, Store.get, ← Array.getElem?_toList, ← Array.getElem?_toList,
      List.getElem?_eq_getElem hs, List.getElem?_eq_getElem ht] at own
    exact own
  unfold Store.bindingBound
  generalize s.namespaces.toList = ns, t.namespaces.toList = ms at pairs
  induction pairs with
  | nil => rfl
  | cons same _ ih =>
    rw [List.flatMap_cons, List.flatMap_cons, sourceBound_append, sourceBound_append, ih,
      sourceBound_of_perm same.sources]

theorem record (h : s.Reordered t) (ds : List Diagnostic) :
    (s.record ds).Reordered (t.record ds) where
  diagnostics := by rw [Store.record, Store.record, h.diagnostics]
  nextBlock := h.nextBlock
  size := h.size
  each := h.each

theorem newBlock (h : s.Reordered t) : s.newBlock.2.Reordered t.newBlock.2 where
  diagnostics := h.diagnostics
  nextBlock := by rw [Store.newBlock, Store.newBlock, h.nextBlock]
  size := h.size
  each := h.each

theorem begin (h : s.Reordered t) (pos : Position) (outer : Scope) {definitions other : Definitions}
    (same : definitions.Reordered other) :
    (s.begin pos outer definitions).2.Reordered (t.begin pos outer other).2 where
  diagnostics := h.diagnostics
  nextBlock := h.nextBlock
  size := by rw [size_begin, size_begin, h.size]
  each id := by
    rw [get_begin, get_begin, h.size]
    split
    · exact ⟨rfl, rfl, same, .none, rfl⟩
    · exact h.each id

theorem modify (h : s.Reordered t) (id : NamespaceId) {f g : Namespace → Namespace}
    (same : ∀ n m, n.Reordered m → (f n).Reordered (g m)) :
    (s.modify id f).Reordered (t.modify id g) where
  diagnostics := h.diagnostics
  nextBlock := h.nextBlock
  size := by rw [size_modify, size_modify, h.size]
  each other := by
    rw [get_modify, get_modify, h.size]
    split
    · exact same _ _ (h.each other)
    · exact h.each other

theorem finish (h : s.Reordered t) (id : NamespaceId) {registry other : Registry}
    (same : registry.Reordered other) :
    (s.finish id registry).Reordered (t.finish id other) :=
  h.modify id fun _ _ hn =>
    ⟨hn.pos, hn.outer, hn.definitions, .some ⟨rfl, same.entries, same.get?⟩, hn.findings⟩

theorem keep (h : s.Reordered t) (id : NamespaceId) (binding : Binding) (found : Forced) :
    (s.keep id binding found).Reordered (t.keep id binding found) :=
  h.modify id fun _ _ hn =>
    ⟨hn.pos, hn.outer, hn.definitions, hn.fields, congrArg (·.put binding found) hn.findings⟩

end Store.Reordered

end NamespaceLang
