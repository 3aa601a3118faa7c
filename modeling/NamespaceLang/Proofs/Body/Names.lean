import NamespaceLang.Body.Pattern

/-!
# The names of a pattern

The names of a pattern are listed from left to right, each with the element numbers
that lead to it. So the list is read off the pattern twice: as its words in order,
and by following a path down from the top.
-/

set_option autoImplicit false

namespace NamespaceLang.Pattern

mutual

def words : Pattern → List String
  | .bind name _ => [name]
  | .list parts => wordsAll parts

def wordsAll : List Pattern → List String
  | [] => []
  | part :: rest => part.words ++ wordsAll rest

end

/-- What a path of element numbers leads to. -/
def at? : List Nat → Pattern → Option Pattern
  | [], p => some p
  | index :: path, .list parts => parts[index]?.bind (at? path)
  | _ :: _, .bind .. => none

mutual

theorem map_name_namesAt (path : List Nat) : (p : Pattern) →
    (p.namesAt path).map (·.name) = p.words
  | .bind .. => by simp [namesAt, words]
  | .list parts => by rw [namesAt, words, map_name_namesFrom path 0 parts]

theorem map_name_namesFrom (path : List Nat) (index : Nat) : (parts : List Pattern) →
    (namesFrom path index parts).map (·.name) = wordsAll parts
  | [] => rfl
  | part :: rest => by
    rw [namesFrom, wordsAll, List.map_append, map_name_namesAt _ part, map_name_namesFrom path _ rest]

end

mutual

/-- The names at a path are those that its continuations lead to. -/
theorem mem_namesAt (path : List Nat) (bound : BoundName) : (p : Pattern) →
    (bound ∈ p.namesAt path ↔
      ∃ below, bound.path = path ++ below ∧ p.at? below = some (.bind bound.name bound.pos))
  | .bind name pos => by
    rw [namesAt, List.mem_singleton]
    constructor
    · rintro rfl
      exact ⟨[], (List.append_nil _).symm, rfl⟩
    · rintro ⟨below, hp, ha⟩
      obtain ⟨own, at_, path'⟩ := bound
      cases below with
      | nil =>
        cases ha
        rw [List.append_nil] at hp
        exact congrArg _ hp
      | cons index rest => cases ha
  | .list parts => by
    rw [namesAt, mem_namesFrom path 0 bound parts]
    constructor
    · rintro ⟨index, part, below, found, hp, ha⟩
      refine ⟨index :: below, by rw [hp, Nat.zero_add], ?_⟩
      rw [at?, found, Option.bind_some, ha]
    · rintro ⟨below, hp, ha⟩
      cases below with
      | nil => cases ha
      | cons index rest =>
        obtain ⟨part, found, ha⟩ := Option.bind_eq_some_iff.1 ha
        exact ⟨index, part, rest, found, by rw [hp, Nat.zero_add], ha⟩

theorem mem_namesFrom (path : List Nat) (first : Nat) (bound : BoundName) : (parts : List Pattern) →
    (bound ∈ namesFrom path first parts ↔ ∃ index part below, parts[index]? = some part ∧
      bound.path = path ++ (first + index) :: below ∧
        part.at? below = some (.bind bound.name bound.pos))
  | [] => by simp [namesFrom]
  | own :: rest => by
    rw [namesFrom, List.mem_append, mem_namesAt _ bound own, mem_namesFrom path (first + 1) bound rest]
    constructor
    · rintro (⟨below, hp, ha⟩ | ⟨index, part, below, found, hp, ha⟩)
      · exact ⟨0, own, below, rfl, by rw [hp, List.append_assoc]; rfl, ha⟩
      · exact ⟨index + 1, part, below, found, by rw [hp, Nat.add_right_comm, Nat.add_assoc], ha⟩
    · rintro ⟨index, part, below, found, hp, ha⟩
      cases index with
      | zero =>
        cases found
        exact Or.inl ⟨below, by rw [hp, List.append_assoc]; rfl, ha⟩
      | succ index =>
        exact Or.inr ⟨index, part, below, found, by rw [hp, Nat.add_right_comm, Nat.add_assoc], ha⟩

end

end NamespaceLang.Pattern
