import NamespaceLang.Proofs.Store.Learns

/-!
# Changes of a store

Whatever goes on in a store comes to changes of a few kinds. A namespace is given
its definitions when it is begun, and its fields when the block is run that its
body has filled. Nothing else says what it has, and no change that is allowed
takes anything back.
-/

set_option autoImplicit false

namespace NamespaceLang

def Block.fields? (b : Block) (list : InstrRef) : Option Registry :=
  match b.evaluate.2 with
  | .ok results =>
    match results.get? list with
    | some (.aggregate registry) => some registry
    | _ => none
  | .error _ => none

inductive Change where
  | tell (found : List Diagnostic)
  | takeBlock
  /-- Work goes on in another environment, where other things were told and other blocks taken. -/
  | turnTo (told : List Diagnostic) (nextBlock : BlockId)
  | begin (pos : Position) (outer : Scope) (definitions : Definitions)
  | evaluate (b : Block)
  | finish (b : Block) (list : InstrRef) (id : NamespaceId)
  | keep (id : NamespaceId) (binding : Binding) (found : Forced)

namespace Store

def change (s : Store) : Change → Store
  | .tell found => s.record found
  | .takeBlock => s.newBlock.2
  | .turnTo told nextBlock => { s with diagnostics := told, nextBlock }
  | .begin pos outer definitions => (s.begin pos outer definitions).2
  | .evaluate _ => s
  | .finish b list id =>
    match b.fields? list with
    | some registry => s.finish id registry
    | none => s
  | .keep id binding found => s.keep id binding found

/-- Fields are given where there are none, and a finding is kept where there is none. -/
def Allows (s : Store) : Change → Prop
  | .finish _ _ id => (s.get id).fields? = none
  | .keep id binding _ => (s.get id).findings.get? binding = none
  | _ => True

def changes (s : Store) (cs : List Change) : Store := cs.foldl change s

def AllowsAll : Store → List Change → Prop
  | _, [] => True
  | s, c :: rest => s.Allows c ∧ (s.change c).AllowsAll rest

theorem changes_append (s : Store) (cs more : List Change) :
    s.changes (cs ++ more) = (s.changes cs).changes more := List.foldl_append

theorem allowsAll_append (s : Store) (cs more : List Change) :
    s.AllowsAll (cs ++ more) ↔ s.AllowsAll cs ∧ (s.changes cs).AllowsAll more := by
  induction cs generalizing s with
  | nil => simp [AllowsAll, changes]
  | cons c rest ih => simp only [List.cons_append, AllowsAll, ih, changes, List.foldl_cons, and_assoc]

theorem changes_induction {R : Store → Store → Prop} (refl : ∀ s, R s s)
    (trans : ∀ s mid later, R s mid → R mid later → R s later)
    (step : ∀ s c, s.Allows c → R s (s.change c)) {s : Store} {cs : List Change}
    (allowed : s.AllowsAll cs) : R s (s.changes cs) := by
  induction cs generalizing s with
  | nil => exact refl s
  | cons c rest ih => exact trans _ _ _ (step s c allowed.1) (ih allowed.2)

/-- Allowed changes lead to the later store. -/
def Develops (s later : Store) : Prop := ∃ cs, s.AllowsAll cs ∧ s.changes cs = later

namespace Develops

variable {s mid later : Store}

theorem refl (s : Store) : s.Develops s := ⟨[], trivial, rfl⟩

theorem trans (h : s.Develops mid) (h' : mid.Develops later) : s.Develops later := by
  obtain ⟨cs, allowed, rfl⟩ := h
  obtain ⟨more, allowed', rfl⟩ := h'
  exact ⟨cs ++ more, (allowsAll_append s cs more).2 ⟨allowed, allowed'⟩, changes_append s cs more⟩

theorem one (c : Change) (allowed : s.Allows c) : s.Develops (s.change c) :=
  ⟨[c], ⟨allowed, trivial⟩, rfl⟩

theorem record (s : Store) (ds : List Diagnostic) : s.Develops (s.record ds) :=
  one (.tell ds) trivial

theorem newBlock (s : Store) : s.Develops s.newBlock.2 := one .takeBlock trivial

theorem begin (s : Store) (pos : Position) (outer : Scope) (definitions : Definitions) :
    s.Develops (s.begin pos outer definitions).2 := one (.begin pos outer definitions) trivial

theorem evaluate (s : Store) (b : Block) : s.Develops s := one (.evaluate b) trivial

theorem finish (s : Store) {id : NamespaceId} (blank : (s.get id).fields? = none) {b : Block}
    {list : InstrRef} {registry : Registry} (built : b.fields? list = some registry) :
    s.Develops (s.finish id registry) := by
  have gives : s.change (.finish b list id) = s.finish id registry := by rw [change, built]
  exact gives ▸ one (.finish b list id) blank

theorem keep (s : Store) {id : NamespaceId} {binding : Binding}
    (none_yet : (s.get id).findings.get? binding = none) (found : Forced) :
    s.Develops (s.keep id binding found) := one (.keep id binding found) none_yet

end Develops

end Store

end NamespaceLang
