import NamespaceLang.Proofs.Instr.Specification

/-!
# Registries in use

A registry is handed entries and asked for keys, locked or not, in any order. The
first entry that it is handed under a key takes the key for good: no later one
gets in, and nothing that is in is moved or taken out again. So what a registry
answers can be read off the entries that it was handed before.
-/

set_option autoImplicit false

namespace NamespaceLang

/-- The two are keys of one field: strings that are the same name, or the same symbol, whatever
shape each fixes for what is stored under it. -/
inductive Key.Alike : Key → Key → Prop where
  | string (name : String) : Alike (.string name) (.string name)
  | symbol (builtin : Builtin) (child other : Shape) :
    Alike (.symbol builtin child) (.symbol builtin other)

theorem Key.field_eq_iff (key other : Key) : key.field = other.field ↔ key.Alike other := by
  constructor
  · intro same
    cases key with
    | string name =>
      cases other with
      | string name' =>
        obtain rfl : name = name' := FieldKey.string.inj same
        exact .string name
      | symbol builtin child => cases same
    | symbol builtin child =>
      cases other with
      | string name => cases same
      | symbol builtin' child' =>
        obtain rfl : builtin = builtin' := FieldKey.symbol.inj same
        exact .symbol builtin child child'
  · rintro (name | ⟨builtin, child, child'⟩) <;> rfl

theorem firstOfEach_distinct (entries : List FieldEntry) :
    (firstOfEach entries).Pairwise fun entry later => entry.key.field ≠ later.key.field := by
  induction entries with
  | nil => exact .nil
  | cons entry rest ih =>
    refine List.pairwise_cons.2 ⟨fun later hm => ?_, ih.filter _⟩
    exact Ne.symm (of_decide_eq_true (List.mem_filter.1 hm).2)

namespace Registry

inductive Request where
  | insert (entry : FieldEntry)
  | get (key : FieldKey)
  | lock

inductive Answer where
  | inserted
  | taken (first : FieldEntry)
  | found (first? : Option FieldEntry)
  | locked

def answer (r : Registry) : Request → Answer × Registry
  | .insert entry =>
    match r.insert entry with
    | .ok larger => (.inserted, larger)
    | .error first => (.taken first, r)
  | .get key => (.found (r.get? key), r)
  | .lock => (.locked, r.lock)

def after (r : Registry) (requests : List Request) : Registry :=
  requests.foldl (fun r request => (r.answer request).2) r

def Request.handed? : Request → Option FieldEntry
  | .insert entry => some entry
  | _ => none

/-- The entries that a registry is handed, first one first. -/
def handed (requests : List Request) : List FieldEntry := requests.filterMap Request.handed?

variable {r : Registry} {before : List FieldEntry}

theorem get?_of_firsts (firsts : r.entries = firstOfEach before) (key : FieldKey) :
    r.get? key = before.find? (·.key.field = key) := by
  rw [get?, firsts, find?_firstOfEach]

theorem answer_insert (firsts : r.entries = firstOfEach before) (entry : FieldEntry) :
    r.answer (.insert entry) =
      match before.find? (·.key.field = entry.key.field) with
      | some first => (.taken first, r)
      | none => (.inserted, { r with entries := r.entries ++ [entry] }) := by
  rw [answer, insert, get?_of_firsts firsts]
  cases before.find? (·.key.field = entry.key.field) <;> rfl

theorem entries_answer (firsts : r.entries = firstOfEach before) (request : Request) :
    (r.answer request).2.entries = firstOfEach (before ++ request.handed?.toList) := by
  cases request with
  | insert entry =>
    rw [answer_insert firsts, Request.handed?, Option.toList_some, firstOfEach_concat]
    cases before.find? (·.key.field = entry.key.field) with
    | some first => exact firsts
    | none => exact congrArg (· ++ [entry]) firsts
  | get key => simpa [answer, Request.handed?] using firsts
  | lock => simpa [answer, Request.handed?] using firsts

theorem prefix_answer (r : Registry) (request : Request) :
    r.entries <+: (r.answer request).2.entries := by
  cases request with
  | insert entry =>
    rw [answer]
    cases inserted : r.insert entry with
    | ok larger =>
      obtain ⟨-, rfl⟩ := (insert_eq_ok_iff r larger entry).1 inserted
      exact List.prefix_append _ _
    | error first => exact List.prefix_rfl
  | get key => exact List.prefix_rfl
  | lock => exact List.prefix_rfl

theorem entries_after (firsts : r.entries = firstOfEach before) (requests : List Request) :
    (r.after requests).entries = firstOfEach (before ++ handed requests) := by
  induction requests generalizing r before with
  | nil => simpa [after, handed] using firsts
  | cons request rest ih =>
    have split : handed (request :: rest) = request.handed?.toList ++ handed rest := by
      cases request <;> rfl
    rw [split, ← List.append_assoc]
    exact ih (entries_answer firsts request)

theorem prefix_after (r : Registry) (requests : List Request) :
    r.entries <+: (r.after requests).entries := by
  induction requests generalizing r with
  | nil => exact List.prefix_rfl
  | cons request rest ih => exact (prefix_answer r request).trans (ih _)

end Registry

open Registry in
/-- However a registry was used since it was empty, its entries are the first ones of each key among
those that it was handed, in that order, and no two of them are alike; whatever follows, they stay
as they are, in their order, before all that comes. A next entry whose key was handed before changes
nothing, and the answer is the first one that had the key; any other is put behind the rest. Asked
for a key, the registry answers with the first entry that it was handed under it, or with none. -/
theorem first_inserted_stands (earlier later : List Request) :
    let r := Registry.empty.after earlier
    r.entries = firstOfEach (handed earlier) ∧
    r.entries.Pairwise (fun entry other => ¬ entry.key.Alike other.key) ∧
    r.entries <+: (r.after later).entries ∧
    (∀ entry, r.answer (.insert entry) =
      match (handed earlier).find? (·.key.field = entry.key.field) with
      | some first => (.taken first, r)
      | none => (.inserted, { r with entries := r.entries ++ [entry] })) ∧
    (∀ key, r.answer (.get key) = (.found ((handed earlier).find? (·.key.field = key)), r)) ∧
    r.answer .lock = (.locked, { r with locked := true }) ∧
    ∀ key other : Key, key.field = other.field ↔ key.Alike other := by
  intro r
  have firsts : r.entries = firstOfEach (handed earlier) :=
    have nothing : Registry.empty.entries = firstOfEach [] := rfl
    entries_after nothing earlier
  have distinct : r.entries.Pairwise fun entry other => ¬ entry.key.Alike other.key := by
    rw [firsts]
    exact (firstOfEach_distinct _).imp fun different alike =>
      different ((Key.field_eq_iff _ _).2 alike)
  have found : ∀ key, r.answer (.get key) =
      (.found ((handed earlier).find? (·.key.field = key)), r) := by
    intro key
    rw [answer, get?_of_firsts firsts]
  exact ⟨firsts, distinct, prefix_after r later, answer_insert firsts, found, rfl,
    Key.field_eq_iff⟩

example (thunk : Thunk) (first second : Position) :
    let own : FieldEntry := ⟨.main, thunk, first⟩
    let r := Registry.empty.after [.insert own, .lock]
    r.answer (.insert ⟨.symbol .main .void, thunk, second⟩) = (.taken own, r) := rfl

end NamespaceLang
