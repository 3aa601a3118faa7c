import NamespaceLang.Instr.Evaluate

/-!
# The fields that a block declares

Each instruction that appends a field takes its source from an earlier one that
keeps source. When the block has run, the fields of a namespace are some of
those that its instructions declare, in that order, each with its own source.
Of namespaces, what comes out gives access to those alone that are in the keys
of the block.
-/

set_option autoImplicit false

namespace NamespaceLang

def Op.namespaces : Op → List NamespaceId
  | .makeKey key => (Shape.ofKey key).namespaces
  | _ => []

/-- The field that an instruction declares when it comes after those before it: where its mark
stands, and its source. -/
def declares (before : List Instr) (instr : Instr) : List (Position × Thunk) :=
  match instr.op with
  | .nsAppend _ _ value =>
    match before[value.index]? with
    | some ⟨.captureAst thunk, _⟩ => [(instr.pos, thunk)]
    | _ => []
  | _ => []

def declaredFrom (before : List Instr) : List Instr → List (Position × Thunk)
  | [] => []
  | instr :: rest => declares before instr ++ declaredFrom (before ++ [instr]) rest

theorem declaredFrom_append (before left right : List Instr) :
    declaredFrom before (left ++ right) =
      declaredFrom before left ++ declaredFrom (before ++ left) right := by
  induction left generalizing before with
  | nil => simp [declaredFrom]
  | cons instr left ih => simp [declaredFrom, ih, List.append_assoc]

def Op.appends : Op → Bool
  | .nsAppend .. => true
  | _ => false

theorem declares_eq_nil {instr : Instr} (h : instr.op.appends = false) (before : List Instr) :
    declares before instr = [] := by
  obtain ⟨op, pos⟩ := instr
  cases op with
  | nsAppend => cases h
  | _ => rfl

theorem declaredFrom_eq_nil {instrs : List Instr} (h : ∀ instr ∈ instrs, instr.op.appends = false)
    (before : List Instr) : declaredFrom before instrs = [] := by
  induction instrs generalizing before with
  | nil => rfl
  | cons instr rest ih =>
    rw [declaredFrom, declares_eq_nil (h instr List.mem_cons_self),
      ih fun other hm => h other (List.mem_cons_of_mem _ hm)]
    rfl

namespace Block

def declared (b : Block) : List (Position × Thunk) := declaredFrom [] b.instrs.toList

def namespaces (b : Block) : List NamespaceId := b.instrs.toList.flatMap (·.op.namespaces)

end Block

namespace Registry

def fields (r : Registry) : List (Position × Thunk) := r.entries.map fun entry =>
  (entry.pos, entry.thunk)

end Registry

namespace Results

theorem operand_ok {r : Results} {pos : Position} {ref : InstrRef} {value : Value}
    (h : r.operand pos ref = .ok value) : r.values[ref.index]? = some value := by
  unfold operand at h
  dsimp only at h
  split at h
  · cases h
  · split at h
    · cases h
    · split at h
      · next there =>
        cases h
        exact there
      · cases h

theorem get?_some {r : Results} {ref : InstrRef} {value : Value} (h : r.get? ref = some value) :
    r.values[ref.index]? = some value := by
  unfold get? at h
  split at h
  · exact h
  · cases h

theorem aggregate_ok {r : Results} {pos : Position} {ref : InstrRef} {registry : Registry}
    (h : r.aggregate pos ref = .ok registry) :
    r.values[ref.index]? = some (.aggregate registry) := by
  unfold aggregate at h
  split at h
  · next there =>
    cases h
    exact get?_some there
  · cases h

theorem append_ok {r after : Results} {pos : Position} {list key value : InstrRef}
    {found : List Diagnostic} (h : r.append pos list key value = .ok (after, found)) :
    ∃ registry own thunk, r.values[list.index]? = some (.aggregate registry) ∧
      r.values[key.index]? = some (.key own) ∧ r.values[value.index]? = some (.ast thunk) ∧
      (after = r ∨ after = { r with
        values := r.values.setIfInBounds list.index (.aggregate
          { registry with entries := registry.entries ++ [⟨own, thunk, pos⟩] }) }) := by
  simp only [append, bind, Except.bind, throw, throwThe, MonadExceptOf.throw, pure, Except.pure] at h
  split at h
  · cases h
  · next target htarget =>
    split at h
    · next registry =>
      split at h
      · cases h
      · next own hkey =>
        split at h
        · next own =>
          split at h
          · cases h
          · next kept hvalue =>
            split at h
            · next thunk =>
              refine ⟨registry, own, thunk, operand_ok htarget, operand_ok hkey, operand_ok hvalue,
                ?_⟩
              split at h
              · cases h
              · split at h
                · next more hinsert =>
                  obtain ⟨-, rfl⟩ := (registry.insert_eq_ok_iff more ⟨own, thunk, pos⟩).1 hinsert
                  cases h
                  exact Or.inr rfl
                · cases h
                  exact Or.inl rfl
            · cases h
        · cases h
    · cases h

/-- The results of some instructions, by what they stem from. -/
structure Stems (r : Results) (before : List Instr) (ids : List NamespaceId) : Prop where
  size : r.values.size = before.length
  sources : ∀ (i : Nat) (thunk : Thunk), r.values[i]? = some (.ast thunk) →
    ∃ pos, before[i]? = some ⟨.captureAst thunk, pos⟩
  fields : ∀ (i : Nat) (registry : Registry), r.values[i]? = some (.aggregate registry) →
    registry.fields.Sublist (declaredFrom [] before)
  namespaces : ∀ (i : Nat) (value : Value), r.values[i]? = some value → value.namespaces ⊆ ids

variable {r after : Results} {before : List Instr} {ids : List NamespaceId}

theorem Stems.push (h : r.Stems before ids) (instr : Instr) {value : Value}
    (source : ∀ thunk, value = .ast thunk → instr.op = .captureAst thunk)
    (fields : ∀ registry, value = .aggregate registry → registry.entries = [])
    (namespaces : value.namespaces ⊆ ids) : (r.push value).Stems (before ++ [instr]) ids where
  size := by simp [Results.push, h.size]
  sources i thunk hv := by
    simp only [Results.push, Array.getElem?_push, h.size] at hv
    split at hv
    · next last =>
      subst last
      obtain ⟨op, pos⟩ := instr
      have same := source thunk (Option.some.inj hv)
      dsimp only at same
      exact ⟨pos, by rw [List.getElem?_append_right (Nat.le_refl _), Nat.sub_self, same]; rfl⟩
    · obtain ⟨pos, there⟩ := h.sources i thunk hv
      have lt := (List.getElem?_eq_some_iff.1 there).1
      exact ⟨pos, by rw [List.getElem?_append_left lt, there]⟩
  fields i registry hv := by
    simp only [Results.push, Array.getElem?_push] at hv
    split at hv
    · rw [Registry.fields, fields registry (Option.some.inj hv)]
      exact List.nil_sublist _
    · rw [declaredFrom_append]
      exact (h.fields i registry hv).trans (List.sublist_append_left _ _)
  namespaces i value' hv := by
    simp only [Results.push, Array.getElem?_push] at hv
    split at hv
    · exact Option.some.inj hv ▸ namespaces
    · exact h.namespaces i value' hv

theorem Stems.replace (h : r.Stems before ids) (registry : Registry)
    (size : after.values.size = r.values.size)
    (same : ∀ (i : Nat) (value : Value), after.values[i]? = some value →
      r.values[i]? = some value ∨ value = .aggregate registry)
    (fields : registry.fields.Sublist (declaredFrom [] before))
    (namespaces : (Value.aggregate registry).namespaces ⊆ ids) : after.Stems before ids where
  size := size.trans h.size
  sources i thunk hv := by
    rcases same i _ hv with there | other
    · exact h.sources i thunk there
    · cases other
  fields i own hv := by
    rcases same i _ hv with there | other
    · exact h.fields i own there
    · cases other
      exact fields
  namespaces i value hv := by
    rcases same i _ hv with there | rfl
    · exact h.namespaces i value there
    · exact namespaces

theorem Stems.append (h : r.Stems before ids) {pos : Position} {list key value : InstrRef}
    {found : List Diagnostic} (ha : r.append pos list key value = .ok (after, found)) :
    (after.push .void).Stems (before ++ [⟨.nsAppend list key value, pos⟩]) ids := by
  obtain ⟨registry, own, thunk, hlist, hkey, hvalue, grown⟩ := append_ok ha
  have plain : (r.push .void).Stems (before ++ [⟨.nsAppend list key value, pos⟩]) ids :=
    h.push _ (fun _ h => by cases h) (fun _ h => by cases h) (List.nil_subset _)
  rcases grown with rfl | rfl
  · exact plain
  · obtain ⟨at_, source⟩ := h.sources _ _ hvalue
    have declared : declaredFrom [] (before ++ [⟨.nsAppend list key value, pos⟩]) =
        declaredFrom [] before ++ [(pos, thunk)] := by
      simp [declaredFrom_append, declaredFrom, declares, source]
    refine plain.replace { registry with
      entries := registry.entries ++ [⟨own, thunk, pos⟩] } ?_ ?_ ?_ ?_
    · simp [Results.push]
    · intro i found hv
      simp only [Results.push, Array.getElem?_push, Array.size_setIfInBounds,
        Array.getElem?_setIfInBounds] at hv ⊢
      split at hv
      · next last =>
        rw [if_pos last]
        exact Or.inl hv
      · next last =>
        rw [if_neg last]
        split at hv
        · split at hv
          · exact Or.inr (Option.some.inj hv).symm
          · cases hv
        · exact Or.inl hv
    · rw [declared]
      simp only [Registry.fields, List.map_append, List.map_cons, List.map_nil]
      exact (h.fields _ _ hlist).append (List.Sublist.refl _)
    · intro id hid
      simp only [Value.namespaces, List.flatMap_append, List.mem_append] at hid
      rcases hid with hid | hid
      · exact h.namespaces _ _ hlist hid
      · exact h.namespaces _ _ hkey (by simpa [Value.namespaces] using hid)

theorem Stems.step (h : r.Stems before ids) {instr : Instr} {found : List Diagnostic}
    (hi : instr.op.namespaces ⊆ ids) (hs : r.step instr = .ok (after, found)) :
    after.Stems (before ++ [instr]) ids := by
  obtain ⟨op, pos⟩ := instr
  cases op with
  | void | comptimeOnly =>
    cases hs
    exact h.push _ (fun _ h => by cases h) (fun _ h => by cases h) (List.nil_subset _)
  | captureAst thunk =>
    cases hs
    exact h.push _ (fun _ h => by cases h; rfl) (fun _ h => by cases h) (List.nil_subset _)
  | makeKey key =>
    cases hs
    exact h.push _ (fun _ h => by cases h) (fun _ h => by cases h) hi
  | nsInit =>
    cases hs
    exact h.push _ (fun _ h => by cases h) (fun _ h => by cases h; rfl) (List.nil_subset _)
  | nsAppend list key value =>
    cases ha : r.append pos list key value with
    | error d => simp [Results.step, ha, Except.map] at hs
    | ok appended =>
      obtain ⟨own, told⟩ := appended
      simp only [Results.step, ha, Except.map, Except.ok.injEq, Prod.mk.injEq] at hs
      obtain ⟨rfl, -⟩ := hs
      exact h.append ha
  | call | leave => cases hs

theorem Stems.run (rest : List Instr) (h : r.Stems before ids) {found : List Diagnostic}
    (hi : ∀ instr ∈ rest, instr.op.namespaces ⊆ ids) (hr : r.run rest = (found, .ok after)) :
    after.Stems (before ++ rest) ids := by
  induction rest generalizing r before found with
  | nil =>
    cases hr
    rwa [List.append_nil]
  | cons instr rest ih =>
    obtain ⟨here, there⟩ := List.forall_mem_cons.1 hi
    rw [Results.run] at hr
    cases hs : r.step instr with
    | error d =>
      rw [hs] at hr
      cases hr
    | ok stepped =>
      obtain ⟨next, told⟩ := stepped
      rw [hs] at hr
      dsimp only at hr
      have ended := (Prod.mk.inj hr).2
      have last := ih (h.step here hs) there (Prod.ext rfl ended)
      rwa [List.append_assoc, List.singleton_append] at last

end Results

theorem Block.evaluate_stems {b : Block} {found : List Diagnostic} {results : Results}
    (h : b.evaluate = (found, .ok results)) : results.Stems b.instrs.toList b.namespaces := by
  have start : (⟨b.id, #[]⟩ : Results).Stems [] b.namespaces := by
    constructor <;> simp
  refine Results.Stems.run b.instrs.toList start (fun instr hm id hid => ?_) h
  exact List.mem_flatMap.2 ⟨instr, hm, hid⟩

end NamespaceLang
