/-!
# Tables

A table holds at most one value for each key, in the order in which the keys
first came.
-/

set_option autoImplicit false

namespace NamespaceLang

structure Table (κ α : Type) where
  entries : List (κ × α)
  deriving Repr

namespace Table

variable {κ α : Type} [DecidableEq κ]

def empty : Table κ α := ⟨[]⟩

def find (k : κ) : List (κ × α) → Option α
  | [] => none
  | (own, a) :: rest => if own = k then some a else find k rest

def replace (k : κ) (a : α) : List (κ × α) → List (κ × α)
  | [] => [(k, a)]
  | (own, b) :: rest => if own = k then (k, a) :: rest else (own, b) :: replace k a rest

def get? (t : Table κ α) (k : κ) : Option α := find k t.entries

def put (t : Table κ α) (k : κ) (a : α) : Table κ α := ⟨replace k a t.entries⟩

def size (t : Table κ α) : Nat := t.entries.length

def keys (t : Table κ α) : List κ := t.entries.map (·.1)

def values (t : Table κ α) : List α := t.entries.map (·.2)

@[simp] theorem get?_empty (k : κ) : (empty : Table κ α).get? k = none := rfl

theorem get?_put (t : Table κ α) (k j : κ) (a : α) :
    (t.put k a).get? j = if k = j then some a else t.get? j := by
  obtain ⟨entries⟩ := t
  simp only [get?, put]
  induction entries with
  | nil => rfl
  | cons entry rest ih =>
    obtain ⟨own, b⟩ := entry
    by_cases hk : own = k
    · subst hk
      by_cases hj : own = j <;> simp [replace, find, hj]
    · by_cases hj : own = j
      · subst hj
        simp [replace, find, hk, Ne.symm hk]
      · simp only [replace, find, if_neg hk, if_neg hj]
        exact ih

theorem mem_keys_iff (t : Table κ α) (k : κ) : k ∈ t.keys ↔ (t.get? k).isSome := by
  obtain ⟨entries⟩ := t
  simp only [get?, keys]
  induction entries with
  | nil => simp [find]
  | cons entry rest ih =>
    obtain ⟨own, b⟩ := entry
    by_cases hk : own = k
    · simp [find, hk]
    · simp only [find, if_neg hk, List.map_cons, List.mem_cons]
      rw [← ih]
      simp [show ¬k = own from fun h => hk h.symm]

end Table

end NamespaceLang
