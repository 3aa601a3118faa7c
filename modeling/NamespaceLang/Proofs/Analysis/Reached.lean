import NamespaceLang.Analysis.Lookup

/-!
# What a name reaches

Which binding a plain name stands for depends on the definitions and fields of
the namespaces around it alone, and not on what was found out about them. The
run that resolves a name goes to that binding, if the namespaces on the way to
it are alive.
-/

set_option autoImplicit false

namespace NamespaceLang

namespace Store

/-- The binding of a name in one namespace; a definition comes before a field. -/
def binds? (s : Store) (name : String) (id : NamespaceId) : Option Binding :=
  if ((s.get id).definitions.get? name).isSome then some (.definition name)
  else if ((s.get id).field? (.string name)).isSome then some (.field (.string name))
  else none

def lookUp (s : Store) (name : String) : Scope → Option (NamespaceId × Binding)
  | [] => none
  | id :: outer =>
    match s.binds? name id with
    | some binding => some (id, binding)
    | none => s.lookUp name outer

/-- The source of a binding. An element of a definition's value has none of its own. -/
def source? (s : Store) (id : NamespaceId) : Binding → Option Thunk
  | .definition name =>
    ((s.get id).definitions.get? name).bind fun found =>
      if found.path.isEmpty then some ⟨found.value, found.pos, s.scopeOf id⟩ else none
  | .field key => ((s.get id).field? key).map (·.thunk)

end Store

inductive Reached where
  | binding (id : NamespaceId) (binding : Binding)
  | nothing
  | gone
  deriving DecidableEq

def Reached.ofBinding? : Option (NamespaceId × Binding) → Reached
  | some (id, own) => binding id own
  | none => nothing

namespace Store

def reach (s : Store) (held : List NamespaceId) (name : String) : Scope → Reached
  | [] => .nothing
  | id :: outer =>
    if s.isAlive held id then
      match s.binds? name id with
      | some binding => .binding id binding
      | none => s.reach held name outer
    else .gone

variable {s : Store} {held : List NamespaceId} {name : String}

theorem lookUp_of_reach {scope : Scope} :
    (∀ id binding, s.reach held name scope = .binding id binding →
      s.lookUp name scope = some (id, binding)) ∧
      (s.reach held name scope = .nothing → s.lookUp name scope = none) := by
  induction scope with
  | nil => exact ⟨fun _ _ h => (by cases h), fun _ => rfl⟩
  | cons id outer ih =>
    simp only [reach, lookUp]
    split
    · cases s.binds? name id with
      | some binding =>
        refine ⟨fun _ _ h => ?_, fun h => by cases h⟩
        cases h
        rfl
      | none => exact ih
    · exact ⟨fun _ _ h => (by cases h), fun h => by cases h⟩

theorem reach_of_alive {scope : Scope} (alive : ∀ id ∈ scope, s.isAlive held id = true) :
    s.reach held name scope = .ofBinding? (s.lookUp name scope) := by
  induction scope with
  | nil => rfl
  | cons id outer ih =>
    rw [reach, lookUp, if_pos (alive id List.mem_cons_self)]
    cases s.binds? name id with
    | some binding => rfl
    | none => exact ih fun o ho => alive o (List.mem_cons_of_mem id ho)

/-- The binding that is reached stands in the scope, and those passed on the way do not bind the
name. -/
theorem split_of_reach {scope : Scope} {id : NamespaceId} {binding : Binding}
    (h : s.reach held name scope = .binding id binding) :
    ∃ inner outer, scope = inner ++ id :: outer ∧ (∀ other ∈ inner, s.binds? name other = none) ∧
      s.binds? name id = some binding := by
  induction scope with
  | nil => cases h
  | cons first outer ih =>
    simp only [reach] at h
    split at h
    · cases hb : s.binds? name first with
      | some own =>
        rw [hb] at h
        cases h
        exact ⟨[], outer, rfl, by simp, hb⟩
      | none =>
        rw [hb] at h
        obtain ⟨inner, outer, rfl, passed, bound⟩ := ih h
        exact ⟨first :: inner, outer, rfl, List.forall_mem_cons.2 ⟨hb, passed⟩, bound⟩
    · cases h

theorem mem_of_reach {scope : Scope} {id : NamespaceId} {binding : Binding}
    (h : s.reach held name scope = .binding id binding) : id ∈ scope := by
  obtain ⟨inner, outer, rfl, -, -⟩ := split_of_reach h
  simp

theorem source?_definition {id : NamespaceId} {found : Definition}
    (hd : (s.get id).definitions.get? name = some found) (hp : found.path.isEmpty = true) :
    s.source? id (.definition name) = some ⟨found.value, found.pos, s.scopeOf id⟩ := by
  simp only [source?, hd, Option.bind_some, hp, if_true]

theorem source?_field {id : NamespaceId} {key : FieldKey} {entry : FieldEntry}
    (hf : (s.get id).field? key = some entry) : s.source? id (.field key) = some entry.thunk := by
  simp [source?, hf]

end Store

/-- Looks into the binding that a name has reached. -/
def useReached (force : Forcing) (pos : Position) (name : String) (slot : Shape) (store : Store) :
    Reached → Run Analysis
  | .binding id binding =>
    match store.source? id binding with
    | some thunk => do return (← force id binding thunk slot).analysis
    | none => Run.fail (.error pos (.destructuredDefinition name))
  | .nothing => Run.fail (.error pos (.unknownName name))
  | .gone => Run.fail (.unreachable pos .scopeGone)

variable (force : Forcing) (pos : Position) (name : String) (slot : Shape)

theorem forceFieldWith_apply {id : NamespaceId} {key : FieldKey} {entry : FieldEntry} {s : State}
    (hf : (s.store.get id).field? key = some entry) (ctx : Context) :
    forceFieldWith force id key slot ctx s =
      (do return (← force id (.field key) entry.thunk slot).analysis) ctx s := by
  unfold forceFieldWith
  rw [Run.bind_apply]
  dsimp only [Run.store]
  rw [hf]

theorem readFieldWith?_apply (id : NamespaceId) (key : FieldKey) (ctx : Context) (s : State) :
    readFieldWith? force id key slot ctx s =
      match (s.store.get id).field? key with
      | some entry => (do return some (← force id (.field key) entry.thunk slot).analysis) ctx s
      | none => (.done none, s) := by
  show (if ((s.store.get id).field? key).isSome then _ else _ : Run (Option Analysis)) ctx s = _
  cases hf : (s.store.get id).field? key with
  | none => rfl
  | some entry =>
    rw [Option.isSome_some, if_pos rfl, Run.bind_apply, forceFieldWith_apply force slot hf]
    simp only [Run.bind_apply]
    rcases force id (.field key) entry.thunk slot ctx s with ⟨_ | _ | _, after⟩ <;> rfl

theorem resolveInWith_apply (id : NamespaceId) (ctx : Context) (s : State) :
    resolveInWith force id pos name slot ctx s =
      match s.store.binds? name id with
      | some binding =>
        (do return some (← useReached force pos name slot s.store (.binding id binding))) ctx s
      | none => (.done none, s) := by
  unfold Store.binds? resolveInWith
  rw [Run.bind_apply]
  dsimp only [Run.store]
  cases hd : (s.store.get id).definitions.get? name with
  | some found =>
    dsimp only
    by_cases hp : found.path.isEmpty = true
    · simp only [hp, if_true, Option.isSome_some, useReached, Store.source?_definition hd hp,
        bind_assoc, pure_bind]
    · simp only [hp, Option.isSome_some, if_true, useReached, Store.source?, hd, Option.bind_some]
      rfl
  | none =>
    dsimp only
    rw [readFieldWith?_apply]
    cases hf : (s.store.get id).field? (.string name) with
    | some entry =>
      simp only [Option.isSome_none, Bool.false_eq_true, if_false, Option.isSome_some, if_true,
        useReached, Store.source?_field hf, bind_assoc, pure_bind]
    | none => rfl

theorem resolveWith_apply (scope : Scope) (ctx : Context) (s : State) :
    resolveWith force pos name slot scope ctx s =
      useReached force pos name slot s.store (s.store.reach ctx.held name scope) ctx s := by
  induction scope with
  | nil => rfl
  | cons id outer ih =>
    rw [resolveWith]
    show (if s.store.isAlive ctx.held id then _ else _ : Run Analysis) ctx s = _
    rw [Store.reach]
    split
    · rw [Run.bind_apply, resolveInWith_apply]
      cases s.store.binds? name id with
      | some binding =>
        simp only [Run.bind_apply]
        rcases useReached force pos name slot s.store (.binding id binding) ctx s with
          ⟨_ | _ | _, after⟩ <;> rfl
      | none => exact ih
    · rfl

end NamespaceLang
