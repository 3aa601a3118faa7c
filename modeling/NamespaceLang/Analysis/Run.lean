import NamespaceLang.Instr.Evaluate
import NamespaceLang.Store

/-!
# Runs

Work on a store, in a block that is being filled. A run is done, or fails with
one diagnostic, or has used up the depth that it was allowed; in each case the
store and the block stay as they were left.
-/

set_option autoImplicit false

namespace NamespaceLang

structure Context where
  trace : Trace
  /-- The namespaces that somebody on the way here has in hand. -/
  held : List NamespaceId
  /-- The bindings that are being looked into, innermost first. -/
  forcing : List (NamespaceId × Binding)
  deriving Repr

def Context.start : Context := ⟨[], [], []⟩

structure State where
  store : Store
  block : Block
  deriving Repr

inductive Outcome (α : Type) where
  | done (a : α)
  | failed (d : Diagnostic)
  | exhausted
  deriving Repr

def Run (α : Type) := Context → State → Outcome α × State

namespace Run

variable {α β : Type}

instance : Monad Run where
  pure a := fun _ s => (.done a, s)
  bind act next := fun ctx s =>
    match act ctx s with
    | (.done a, s) => next a ctx s
    | (.failed d, s) => (.failed d, s)
    | (.exhausted, s) => (.exhausted, s)

def exhausted : Run α := fun _ s => (.exhausted, s)

def fail (d : Diagnostic) : Run α := fun ctx s => (.failed (d.under ctx.trace), s)

def ofExcept : Except Diagnostic α → Run α
  | .ok a => pure a
  | .error d => fail d

def context : Run Context := fun ctx s => (.done ctx, s)

def store : Run Store := fun _ s => (.done s.store, s)

def modifyStore (f : Store → Store) : Run Unit := fun _ s =>
  (.done (), { s with store := f s.store })

def record (ds : List Diagnostic) : Run Unit := fun ctx s =>
  (.done (), { s with store := s.store.record (ds.map (·.under ctx.trace)) })

def begin (pos : Position) (outer : Scope) (definitions : Definitions) : Run NamespaceId :=
  fun _ s =>
    let (id, store) := s.store.begin pos outer definitions
    (.done id, { s with store })

/-- Records what the work fails with and goes on. -/
def attempt (act : Run Unit) : Run Unit := fun ctx s =>
  match act ctx s with
  | (.failed d, s) => (.done (), { s with store := s.store.record [d] })
  | ended => ended

def within (label : String) (pos : Position) (act : Run α) : Run α := fun ctx s =>
  act { ctx with trace := ctx.trace ++ [⟨label, pos⟩] } s

def holding (ids : List NamespaceId) (act : Run α) : Run α := fun ctx s =>
  act { ctx with held := ids ++ ctx.held } s

def entering (id : NamespaceId) (binding : Binding) (act : Run α) : Run α := fun ctx s =>
  act { ctx with forcing := (id, binding) :: ctx.forcing } s

/-- Does the work in a new block, and comes back to the block of before. -/
def inNewBlock (act : Run α) : Run α := fun ctx s =>
  let (block, store) := s.store.newBlock
  let (outcome, after) := act ctx ⟨store, block⟩
  (outcome, { after with block := s.block })

def push (op : Op) (pos : Position) : Run InstrRef := fun _ s =>
  let (ref, block) := s.block.push op pos
  (.done ref, { s with block })

def materialize (operand : Operand) (pos : Position) : Run InstrRef := fun ctx s =>
  match s.block.materialize operand pos with
  | .ok (ref, block) => (.done ref, { s with block })
  | .error d => (.failed (d.under ctx.trace), s)

def evaluate : Run Results := fun ctx s =>
  let (found, outcome) := s.block.evaluate
  (do record found; ofExcept outcome : Run Results) ctx s

def deferred (op : Op) (pos : Position) (shape : Shape) : Run Analysis := do
  return .deferred (← push op pos) shape

@[simp] theorem pure_apply (a : α) (ctx : Context) (s : State) :
    (pure a : Run α) ctx s = (.done a, s) := rfl

theorem bind_apply (act : Run α) (next : α → Run β) (ctx : Context) (s : State) :
    (act >>= next) ctx s =
      match act ctx s with
      | (.done a, s) => next a ctx s
      | (.failed d, s) => (.failed d, s)
      | (.exhausted, s) => (.exhausted, s) := rfl

theorem id_map (act : Run α) : id <$> act = act := by
  funext ctx s
  show (match act ctx s with
    | (.done a, s) => (Outcome.done a, s)
    | (.failed d, s) => (.failed d, s)
    | (.exhausted, s) => (.exhausted, s)) = act ctx s
  rcases act ctx s with ⟨_ | _ | _, s⟩ <;> rfl

theorem bind_assoc {γ : Type} (act : Run α) (next : α → Run β) (last : β → Run γ) :
    act >>= next >>= last = act >>= fun a => next a >>= last := by
  funext ctx s
  simp only [bind_apply]
  rcases act ctx s with ⟨_ | _ | _, s⟩ <;> rfl

instance : LawfulMonad Run := LawfulMonad.mk' Run id_map (fun _ _ => rfl) bind_assoc

end Run

end NamespaceLang
