import Mathlib.Algebra.Order.BigOperators.Group.Finset
import Mathlib.Algebra.Order.BigOperators.Group.List
import NamespaceLang.Proofs.Analysis.Later
import NamespaceLang.Proofs.Body.Worth
import NamespaceLang.Proofs.Termination

/-!
# What is owed to bindings

Each binding that was not looked into yet, and is not being looked into, is owed
what its source is worth. Where nothing leads out of some namespaces, work that
is begun inside them has to do with no others but those that it begins itself.
It pays for these with what it has before it, and for looking into a binding with
what this is owed.
-/

set_option autoImplicit false

namespace NamespaceLang

open NamespaceLang.Tree

def Namespace.prices (n : Namespace) : List (Binding × Nat) :=
  n.definitions.entries.map (fun entry => (.definition entry.1, entry.2.price)) ++
    ((n.fields?.map (·.entries)).getD []).map fun entry =>
      (.field entry.key.field, price entry.thunk.nodes)

namespace Store

/-- Neither the sources of these namespaces nor what was found in them lead to any others. -/
structure Encloses (s : Store) (C : Finset NamespaceId) : Prop where
  begun : ∀ id ∈ C, id < s.size
  source : ∀ id ∈ C, ∀ b t, s.source? id b = some t → ∀ other ∈ t.scope, other ∈ C
  kept : ∀ id ∈ C, ∀ other ∈ (s.get id).keeps, other ∈ C

/-- The namespaces have come to include others, but none that had been begun before. -/
structure Spreads (s : Store) (C : Finset NamespaceId) (later : Store) (D : Finset NamespaceId) :
    Prop where
  encloses : later.Encloses D
  sub : C ⊆ D
  old : ∀ id ∈ D, id < s.size → id ∈ C

variable {s mid later : Store} {C D E : Finset NamespaceId}

theorem Encloses.congr (h : s.Encloses C) (size : later.size = s.size) (get : later.get = s.get) :
    later.Encloses C where
  begun id hi := size ▸ h.begun id hi
  source id hi b t ht := by
    have same : later.source? id b = s.source? id b := by
      cases b <;> simp only [source?, scopeOf, get]
    exact h.source id hi b t (same ▸ ht)
  kept id hi := by rw [get]; exact h.kept id hi

theorem Spreads.trans (h : s.Spreads C mid D) (h' : mid.Spreads D later E)
    (size : s.size ≤ mid.size) :
    s.Spreads C later E where
  encloses := h'.encloses
  sub := h.sub.trans h'.sub
  old id hi begun := h.old id (h'.old id hi (Nat.lt_of_lt_of_le begun size)) begun

theorem Spreads.congr (h : s.Encloses C) (size : later.size = s.size) (get : later.get = s.get) :
    s.Spreads C later C := ⟨h.congr size get, subset_rfl, fun _ hi _ => hi⟩

section

variable (s) (pos : Position) (outer : Scope) (definitions : Definitions)

theorem source?_begin_of_ne {id : NamespaceId} (other : id ≠ s.size) (b : Binding) :
    (s.begin pos outer definitions).2.source? id b = s.source? id b := by
  have same : (s.begin pos outer definitions).2.get id = s.get id := by rw [get_begin, if_neg other]
  cases b <;> simp only [source?, scopeOf, same]

theorem keeps_begin (id : NamespaceId) :
    ((s.begin pos outer definitions).2.get id).keeps = (s.get id).keeps := by
  rw [Namespace.keeps, findings_begin, Namespace.keeps]

end

theorem Spreads.begin_apart (h : s.Encloses C) (pos : Position) (outer : Scope)
    (definitions : Definitions) : s.Spreads C (s.begin pos outer definitions).2 C where
  encloses := {
    begun id hi := by rw [size_begin]; exact Nat.lt_succ_of_lt (h.begun id hi)
    source id hi b t ht := by
      rw [source?_begin_of_ne _ _ _ _ (Nat.ne_of_lt (h.begun id hi))] at ht
      exact h.source id hi b t ht
    kept id hi := by rw [keeps_begin]; exact h.kept id hi }
  sub := subset_rfl
  old _ hi _ := hi

theorem Spreads.begin_among (h : s.Encloses C) (pos : Position) {outer : Scope}
    (inside : ∀ id ∈ outer, id ∈ C) (definitions : Definitions) :
    s.Spreads C (s.begin pos outer definitions).2 (insert s.size C) where
  encloses := {
    begun id hi := by
      rw [size_begin]
      rcases Finset.mem_insert.1 hi with rfl | hi
      · exact Nat.lt_succ_self _
      · exact Nat.lt_succ_of_lt (h.begun id hi)
    source id hi b t ht other ho := by
      rcases Finset.mem_insert.1 hi with rfl | hi
      · obtain ⟨name, found, -, -, -, rfl, -⟩ := source?_begin ht
        rcases List.mem_cons.1 ho with rfl | ho
        · exact Finset.mem_insert_self _ _
        · exact Finset.mem_insert_of_mem (inside other ho)
      · rw [source?_begin_of_ne _ _ _ _ (Nat.ne_of_lt (h.begun id hi))] at ht
        exact Finset.mem_insert_of_mem (h.source id hi b t ht other ho)
    kept id hi other ho := by
      rw [keeps_begin] at ho
      rcases Finset.mem_insert.1 hi with rfl | hi
      · rw [get_of_size_le (Nat.le_refl _)] at ho
        cases ho
      · exact Finset.mem_insert_of_mem (h.kept id hi other ho) }
  sub := Finset.subset_insert _ _
  old id hi begun := (Finset.mem_insert.1 hi).resolve_left (Nat.ne_of_lt begun)

theorem keeps_finish (s : Store) (id other : NamespaceId) (registry : Registry) :
    ((s.finish id registry).get other).keeps = (s.get other).keeps := by
  rw [Namespace.keeps, findings_finish, Namespace.keeps]

theorem source?_finish_of_ne (s : Store) {id other : NamespaceId} (apart : other ≠ id)
    (registry : Registry) (b : Binding) :
    (s.finish id registry).source? other b = s.source? other b := by
  have same := get_modify_of_ne s apart fun n => { n with fields? := some registry.lock }
  cases b <;> simp only [source?, scopeOf, Store.finish, same]

theorem Spreads.finish (h : s.Encloses C) {id : NamespaceId} {registry : Registry}
    (inside : id ∈ C → ∀ entry ∈ registry.entries, ∀ other ∈ entry.thunk.scope, other ∈ C) :
    s.Spreads C (s.finish id registry) C where
  encloses := {
    begun own ho := by rw [Store.finish, size_modify]; exact h.begun own ho
    source own ho b t ht := by
      by_cases same : own = id
      · subst same
        cases b with
        | definition name =>
          rw [source?_finish_definition] at ht
          exact h.source own ho _ t ht
        | field key =>
          obtain ⟨entry, he, -, rfl, -⟩ := source?_finish_field (h.begun own ho) ht
          exact inside ho entry he
      · rw [source?_finish_of_ne s same] at ht
        exact h.source own ho b t ht
    kept own ho := by rw [keeps_finish]; exact h.kept own ho }
  sub := subset_rfl
  old _ hi _ := hi

theorem source?_keep (s : Store) (id other : NamespaceId) (binding b : Binding) (found : Forced) :
    (s.keep id binding found).source? other b = s.source? other b := by
  have same : ((s.keep id binding found).get other).definitions = (s.get other).definitions ∧
      ((s.keep id binding found).get other).fields? = (s.get other).fields? ∧
      ((s.keep id binding found).get other).outer = (s.get other).outer := by
    rw [Store.keep, get_modify]
    split <;> exact ⟨rfl, rfl, rfl⟩
  obtain ⟨definitions, fields, outer⟩ := same
  cases b <;> simp only [source?, scopeOf, Namespace.field?, definitions, fields, outer]

theorem Spreads.keep (h : s.Encloses C) {id : NamespaceId} (binding : Binding) {found : Forced}
    (inside : id ∈ C → ∀ other ∈ found.namespaces, other ∈ C) :
    s.Spreads C (s.keep id binding found) C where
  encloses := {
    begun own ho := by rw [Store.keep, size_modify]; exact h.begun own ho
    source own ho b t ht := by
      rw [source?_keep] at ht
      exact h.source own ho b t ht
    kept own ho other hother := by
      obtain ⟨f, hf, hn⟩ := List.mem_flatMap.1 hother
      rw [Store.keep, get_modify] at hf
      split at hf
      · next same =>
        obtain ⟨rfl, -⟩ := same
        rcases Table.mem_values_put _ _ _ f hf with rfl | hf
        · exact inside ho other hn
        · exact h.kept own ho other (List.mem_flatMap.2 ⟨f, hf, hn⟩)
      · exact h.kept own ho other (List.mem_flatMap.2 ⟨f, hf, hn⟩) }
  sub := subset_rfl
  old _ hi _ := hi

/-- What a binding is owed while those of `entered` are being looked into. -/
def due (s : Store) (entered : List Place) (p : Place) (worth : Nat) : Nat :=
  if (s.finding? p).isSome ∨ p ∈ entered then 0 else worth

def dues (s : Store) (entered : List Place) (id : NamespaceId) : Nat :=
  ((s.get id).prices.map fun b => s.due entered (id, b.1) b.2).sum

def owed (s : Store) (entered : List Place) (C : Finset NamespaceId) : Nat :=
  ∑ id ∈ C, s.dues entered id

variable {entered more : List Place}

theorem due_le (s : Store) (entered : List Place) (p : Place) (worth : Nat) :
    s.due entered p worth ≤ worth := by
  unfold due
  split
  · exact Nat.zero_le _
  · exact Nat.le_refl _

theorem due_mono {p : Place} (settled : (s.finding? p).isSome ∨ p ∈ entered →
    (later.finding? p).isSome ∨ p ∈ more) (worth : Nat) :
    later.due more p worth ≤ s.due entered p worth := by
  unfold due
  by_cases h : (s.finding? p).isSome ∨ p ∈ entered
  · rw [if_pos (settled h)]
    exact Nat.zero_le _
  · rw [if_neg h]
    split
    · exact Nat.zero_le _
    · exact Nat.le_refl _

theorem dues_mono {id : NamespaceId} (same : (later.get id).prices = (s.get id).prices)
    (settled : ∀ b, (s.finding? (id, b)).isSome ∨ (id, b) ∈ entered →
      (later.finding? (id, b)).isSome ∨ (id, b) ∈ more) :
    later.dues more id ≤ s.dues entered id := by
  rw [dues, dues, same]
  exact List.sum_le_sum fun b _ => due_mono (settled b.1) b.2

theorem owed_mono (same : ∀ id ∈ C, (later.get id).prices = (s.get id).prices)
    (settled : ∀ id ∈ C, ∀ b, (s.finding? (id, b)).isSome ∨ (id, b) ∈ entered →
      (later.finding? (id, b)).isSome ∨ (id, b) ∈ more) :
    later.owed more C ≤ s.owed entered C :=
  Finset.sum_le_sum fun id hi => dues_mono (same id hi) (settled id hi)

theorem owed_congr (get : later.get = s.get) : later.owed entered C = s.owed entered C := by
  unfold owed dues due finding?
  rw [get]

theorem sum_map_add_le {α : Type} {f g : α → Nat} {a : α} {n : Nat} :
    {list : List α} → a ∈ list → (∀ b ∈ list, f b ≤ g b) → f a + n ≤ g a →
      (list.map f).sum + n ≤ (list.map g).sum
  | first :: rest, here, each, drop => by
    obtain ⟨head, tail⟩ := List.forall_mem_cons.1 each
    rw [List.map_cons, List.sum_cons, List.map_cons, List.sum_cons]
    rcases List.mem_cons.1 here with rfl | here
    · have others : (rest.map f).sum ≤ (rest.map g).sum := List.sum_le_sum tail
      omega
    · have inner := sum_map_add_le here tail drop
      omega

theorem mem_entries_of_get? {κ α : Type} [DecidableEq κ] {t : Table κ α} {k : κ} {a : α}
    (h : t.get? k = some a) : (k, a) ∈ t.entries := by
  obtain ⟨entries⟩ := t
  simp only [Table.get?] at h ⊢
  induction entries with
  | nil => cases h
  | cons entry rest ih =>
    obtain ⟨own, b⟩ := entry
    rw [Table.find] at h
    split at h
    · next same =>
      cases h
      rw [same]
      exact List.mem_cons_self
    · exact List.mem_cons_of_mem _ (ih h)

theorem mem_prices {id : NamespaceId} {b : Binding} {t : Thunk} (h : s.source? id b = some t) :
    (b, price t.nodes) ∈ (s.get id).prices := by
  cases b with
  | definition name =>
    obtain ⟨found, hf, rest⟩ := Option.bind_eq_some_iff.1 h
    split at rest
    · next whole =>
      cases rest
      refine List.mem_append_left _ (List.mem_map.2 ⟨_, mem_entries_of_get? hf, ?_⟩)
      simp only [Definition.price, whole, if_true]
    · cases rest
  | field key =>
    obtain ⟨entry, he, rfl⟩ := Option.map_eq_some_iff.1 h
    obtain ⟨registry, hr, there⟩ := Option.bind_eq_some_iff.1 he
    refine List.mem_append_right _ (List.mem_map.2 ⟨entry, ?_, ?_⟩)
    · rw [hr]
      exact List.mem_of_find?_eq_some there
    · simpa using List.find?_some there

/-- A binding that comes to be looked into gives up what it is owed. -/
theorem owed_enter {id : NamespaceId} {b : Binding} {t : Thunk} (hi : id ∈ C)
    (source : s.source? id b = some t) (first : s.finding? (id, b) = none)
    (outside : (id, b) ∉ entered) :
    s.owed ((id, b) :: entered) C + price t.nodes ≤ s.owed entered C := by
  have less : ∀ own, s.dues ((id, b) :: entered) own ≤ s.dues entered own := fun own =>
    dues_mono rfl fun c settled => settled.imp_right (List.mem_cons_of_mem _)
  have others : ∑ own ∈ C.erase id, s.dues ((id, b) :: entered) own ≤
      ∑ own ∈ C.erase id, s.dues entered own := Finset.sum_le_sum fun own _ => less own
  have own : s.dues ((id, b) :: entered) id + price t.nodes ≤ s.dues entered id := by
    refine sum_map_add_le (mem_prices source) (fun c _ => ?_) ?_
    · exact due_mono (fun settled => settled.imp_right (List.mem_cons_of_mem _)) c.2
    · dsimp only [due]
      rw [if_pos (Or.inr List.mem_cons_self), first, if_neg (by simp [outside]), Nat.zero_add]
  rw [owed, owed, ← Finset.add_sum_erase C _ hi, ← Finset.add_sum_erase C _ hi]
  omega

theorem prices_keep (s : Store) (id other : NamespaceId) (binding : Binding) (found : Forced) :
    ((s.keep id binding found).get other).prices = (s.get other).prices := by
  rw [Store.keep, get_modify]
  split <;> rfl

theorem owed_keep {id : NamespaceId} (begun : id < s.size) (binding : Binding) (found : Forced) :
    (s.keep id binding found).owed entered C ≤ s.owed ((id, binding) :: entered) C := by
  refine owed_mono (fun _ _ => prices_keep _ _ _ _ _) fun own _ b settled => ?_
  rw [finding?, get?_keep]
  split
  · exact Or.inl rfl
  · next other =>
    refine settled.imp_right fun there => (List.mem_cons.1 there).resolve_left fun same => ?_
    cases same
    exact other ⟨rfl, begun, rfl⟩

theorem owed_keep_apart {id : NamespaceId} (apart : id ∉ C) (binding : Binding) (found : Forced) :
    (s.keep id binding found).owed entered C ≤ s.owed entered C := by
  refine owed_mono (fun _ _ => prices_keep _ _ _ _ _) fun own ho b settled => ?_
  have other : own ≠ id := ne_of_mem_of_not_mem ho apart
  rw [finding?, get?_keep, if_neg (fun all => other all.1)]
  exact settled

theorem owed_begin_apart (h : s.Encloses C) (pos : Position) (outer : Scope)
    (definitions : Definitions) :
    (s.begin pos outer definitions).2.owed entered C ≤ s.owed entered C := by
  have same : ∀ id ∈ C, (s.begin pos outer definitions).2.get id = s.get id := fun id hi => by
    rw [get_begin, if_neg (Nat.ne_of_lt (h.begun id hi))]
  refine owed_mono (fun id hi => by rw [same id hi]) fun id hi b settled => ?_
  rw [finding?, same id hi]
  exact settled

theorem owed_begin_among (h : s.Encloses C) (pos : Position) (outer : Scope)
    (definitions : Definitions) :
    (s.begin pos outer definitions).2.owed entered (insert s.size C) ≤
      s.owed entered C + pricesOf definitions.entries := by
  have fresh : s.size ∉ C := fun hi => Nat.lt_irrefl _ (h.begun _ hi)
  have others : (s.begin pos outer definitions).2.owed entered C ≤ s.owed entered C :=
    owed_begin_apart h pos outer definitions
  have own :
      (s.begin pos outer definitions).2.dues entered s.size ≤ pricesOf definitions.entries := by
    rw [dues, get_begin, if_pos rfl, Namespace.prices, pricesOf]
    simp only [Option.map_none, Option.getD_none, List.map_nil, List.append_nil, List.map_map]
    exact List.sum_le_sum fun entry _ => due_le _ _ _ _
  rw [owed, Finset.sum_insert fresh, Nat.add_comm]
  exact Nat.add_le_add others own

theorem owed_finish_apart {id : NamespaceId} (apart : id ∉ C) (registry : Registry) :
    (s.finish id registry).owed entered C ≤ s.owed entered C := by
  have same : ∀ own ∈ C, (s.finish id registry).get own = s.get own := fun own ho =>
    get_modify_of_ne s (ne_of_mem_of_not_mem ho apart) _
  refine owed_mono (fun own ho => by rw [same own ho]) fun own ho b settled => ?_
  rw [finding?, same own ho]
  exact settled

theorem owed_finish_among {id : NamespaceId} (hi : id ∈ C) (unread : (s.get id).fields? = none)
    (registry : Registry) :
    (s.finish id registry).owed entered C ≤
      s.owed entered C + (registry.entries.map fun entry => price entry.thunk.nodes).sum := by
  have others : ∑ own ∈ C.erase id, (s.finish id registry).dues entered own ≤
      ∑ own ∈ C.erase id, s.dues entered own :=
    owed_finish_apart (Finset.notMem_erase id C) registry
  have found : ∀ p, (s.finish id registry).finding? p = s.finding? p := fun p => by
    rw [finding?, findings_finish, finding?]
  have own : (s.finish id registry).dues entered id ≤
      s.dues entered id + (registry.entries.map fun entry => price entry.thunk.nodes).sum := by
    by_cases begun : id < s.size
    · have before : (s.get id).prices = (s.get id).definitions.entries.map
          fun entry => (.definition entry.1, entry.2.price) := by simp [Namespace.prices, unread]
      rw [dues, get_finish begun, Namespace.prices, List.map_append, List.sum_append, dues, before]
      refine Nat.add_le_add (Nat.le_of_eq ?_) ?_
      · simp only [List.map_map, due, found, Function.comp_def]
      · simp only [Option.map_some, Option.getD_some, Registry.entries_lock, List.map_map]
        exact List.sum_le_sum fun entry _ => due_le _ _ _ _
    · have same : (s.finish id registry).get id = s.get id := by
        rw [Store.finish, get_modify, if_neg (fun both => begun both.2)]
      have still : (s.finish id registry).dues entered id = s.dues entered id := by
        simp only [dues, due, found, same]
      omega
  rw [owed, owed, ← Finset.add_sum_erase C _ hi, ← Finset.add_sum_erase C _ hi]
  omega

/-- All source in the store is arranged, and nothing leads out of it. -/
structure Tame (s : Store) : Prop where
  encloses : s.Encloses (Finset.range s.size)
  whole : ∀ id b t, s.source? id b = some t → Whole t.nodes

theorem tame_ofDiagnostics (ds : List Diagnostic) : (Store.ofDiagnostics ds).Tame where
  encloses := ⟨fun _ hi => Finset.mem_range.1 hi,
    fun _ hi => absurd (Finset.mem_range.1 hi) (Nat.not_lt_zero _),
    fun _ hi => absurd (Finset.mem_range.1 hi) (Nat.not_lt_zero _)⟩
  whole _ _ _ ht := absurd (begun_of_source ht) (Nat.not_lt_zero _)

theorem Tame.congr (h : s.Tame) (size : later.size = s.size) (get : later.get = s.get) :
    later.Tame where
  encloses := size ▸ h.encloses.congr size get
  whole id b t ht := by
    have same : later.source? id b = s.source? id b := by
      cases b <;> simp only [source?, scopeOf, get]
    exact h.whole id b t (same ▸ ht)

theorem Tame.begin (h : s.Tame) (pos : Position) {outer : Scope} (inside : Begun s.size outer)
    {definitions : Definitions} (whole : ∀ d ∈ definitions.values, Whole d.value) :
    (s.begin pos outer definitions).2.Tame where
  encloses := by
    have among := (Spreads.begin_among h.encloses pos
      (fun id hi => Finset.mem_range.2 (inside id hi)) definitions).encloses
    rw [size_begin, Finset.range_add_one]
    exact among
  whole id b t ht := by
    by_cases last : id = s.size
    · subst last
      obtain ⟨name, found, -, hf, -, rfl, -⟩ := source?_begin ht
      exact whole found (Table.mem_values_of_get? hf)
    · rw [source?_begin_of_ne _ _ _ _ last] at ht
      exact h.whole id b t ht

theorem Tame.finish (h : s.Tame) {id : NamespaceId} {registry : Registry}
    (inside : ∀ entry ∈ registry.entries, Begun s.size entry.thunk.scope)
    (whole : ∀ entry ∈ registry.entries, Whole entry.thunk.nodes) :
    (s.finish id registry).Tame where
  encloses := by
    rw [Store.finish, size_modify]
    exact (Spreads.finish h.encloses fun _ entry he other ho =>
      Finset.mem_range.2 (inside entry he other ho)).encloses
  whole own b t ht := by
    by_cases same : own = id
    · subst same
      cases b with
      | definition name =>
        rw [source?_finish_definition] at ht
        exact h.whole own _ t ht
      | field key =>
        have begun : own < s.size := by
          have := begun_of_source ht
          rwa [Store.finish, size_modify] at this
        obtain ⟨entry, he, -, rfl, -⟩ := source?_finish_field begun ht
        exact whole entry he
    · rw [source?_finish_of_ne s same] at ht
      exact h.whole own b t ht

theorem Tame.keep (h : s.Tame) (id : NamespaceId) (binding : Binding) {found : Forced}
    (inside : Begun s.size found.namespaces) : (s.keep id binding found).Tame where
  encloses := by
    rw [Store.keep, size_modify]
    exact (Spreads.keep h.encloses binding fun _ other ho =>
      Finset.mem_range.2 (inside other ho)).encloses
  whole own b t ht := by
    rw [source?_keep] at ht
    exact h.whole own b t ht

theorem owed_le_bindingBound (s : Store) (entered : List Place) :
    s.owed entered (Finset.range s.size) ≤ s.bindingBound := by
  have prices_le : ∀ list : List (List Tree), (list.map price).sum ≤ sourceBound list := by
    intro list
    induction list with
    | nil => exact Nat.le_refl _
    | cons nodes rest ih =>
      have first := price_le nodes
      rw [List.map_cons, List.sum_cons, sourceBound]
      omega
  have definition_le : ∀ d : Definition, d.price ≤ price d.value := by
    intro d
    unfold Definition.price
    split
    · exact Nat.le_refl _
    · exact Nat.zero_le _
  have each : ∀ id, s.dues entered id ≤ sourceBound (s.get id).sources := by
    intro id
    have dues_le : s.dues entered id ≤ ((s.get id).prices.map (·.2)).sum :=
      List.sum_le_sum fun b _ => due_le _ _ _ _
    refine dues_le.trans ((Nat.le_trans ?_ (prices_le _)))
    rw [Namespace.prices, Namespace.sources, List.map_append, List.map_append, List.sum_append,
      List.sum_append]
    refine Nat.add_le_add ?_ (Nat.le_of_eq ?_)
    · simp only [Table.values, List.map_map]
      exact List.sum_le_sum fun entry _ => definition_le entry.2
    · simp only [List.map_map, Function.comp_def]
  have all : ∀ list : List Namespace, ∑ i ∈ Finset.range list.length,
      sourceBound (list[i]?.getD default).sources =
        sourceBound (list.flatMap Namespace.sources) := by
    intro list
    induction list with
    | nil => rfl
    | cons own rest ih =>
      rw [List.length_cons, Finset.sum_range_succ', List.flatMap_cons, sourceBound_append, ← ih]
      simp [Nat.add_comm]
  refine (Finset.sum_le_sum fun id _ => each id).trans (Nat.le_of_eq ?_)
  have sums := all s.namespaces.toList
  rw [bindingBound, ← sums]
  simp only [Store.get, size, Array.length_toList, Array.getElem?_toList]

end Store

end NamespaceLang
