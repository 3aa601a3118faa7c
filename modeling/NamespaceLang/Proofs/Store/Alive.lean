import NamespaceLang.Store

/-!
# More is held, more is alive

The living namespaces are found by leaving out, over and over, what is not
supported by what is left. Whoever holds more leaves out less.
-/

set_option autoImplicit false

namespace NamespaceLang.Store

variable (s : Store) {held more : List NamespaceId}

theorem mem_supported (held ids : List NamespaceId) (id : NamespaceId) :
    id ∈ s.supported held ids ↔
      id ∈ ids ∧ (id ∈ held ∨ ∃ by_ ∈ ids, id ∈ (s.get by_).keeps) := by
  simp [supported]

theorem supported_mono {ids others : List NamespaceId} (hh : held ⊆ more) (hi : ids ⊆ others) :
    s.supported held ids ⊆ s.supported more others := by
  intro id hm
  obtain ⟨hid, support⟩ := (s.mem_supported held ids id).1 hm
  refine (s.mem_supported more others id).2 ⟨hi hid, ?_⟩
  rcases support with hm | ⟨by_, hb, hk⟩
  · exact Or.inl (hh hm)
  · exact Or.inr ⟨by_, hi hb, hk⟩

theorem supportedFrom_fixed {ids : List NamespaceId} (h : s.supported held ids = ids) (rounds : Nat) :
    s.supportedFrom held rounds ids = ids := by
  cases rounds with
  | zero => rfl
  | succ rounds => rw [supportedFrom, if_pos (by rw [h])]

theorem supportedFrom_succ (held ids : List NamespaceId) (rounds : Nat) :
    s.supportedFrom held (rounds + 1) ids = s.supportedFrom held rounds (s.supported held ids) := by
  rw [supportedFrom]
  split
  · next same =>
    have fixed : s.supported held ids = ids := List.filter_sublist.eq_of_length same
    rw [fixed, s.supportedFrom_fixed fixed]
  · rfl

theorem supportedFrom_mono (hh : held ⊆ more) (rounds : Nat) {ids others : List NamespaceId}
    (hi : ids ⊆ others) : s.supportedFrom held rounds ids ⊆ s.supportedFrom more rounds others := by
  induction rounds generalizing ids others with
  | zero => exact hi
  | succ rounds ih =>
    rw [supportedFrom_succ, supportedFrom_succ]
    exact ih (s.supported_mono hh hi)

/-- What is alive stays alive when more is held. -/
theorem isAlive_mono (hh : held ⊆ more) {id : NamespaceId} (h : s.isAlive held id = true) :
    s.isAlive more id = true := by
  simp only [isAlive, Bool.or_eq_true, List.contains_iff_mem] at h ⊢
  exact h.imp (hh ·) (s.supportedFrom_mono hh _ (List.Subset.refl _) ·)

end NamespaceLang.Store
